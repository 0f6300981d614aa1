import BuddySystem.Proofs.Effects
import BuddySystem.Proofs.Settling

/-!
# How far a cascade of merges goes

The blocks that a cascade goes through all hold the first frame of the block that was
given back: at every order it is the aligned block around that frame
(`Block.around`), and the block it is merged with is the buddy of that one
(`Block.buddyAround`).  Each step asks for its buddy in a list that the steps before
have not touched.  So the whole cascade can be told from the lists before the call: it
stops at the least order that is the last one or at which the buddy is not listed
(`Allocator.stops`).

* `Ascends.partners_subset`: a cascade meets only blocks that were in stock.
* `Settles.eq_insert`: what a cascade leaves is the stock without these blocks, and the
  block around them all.
* `isLeast_of_freed`: it stops at the least order at which it can stop.

`Returns` says what there is to read when a block has been given back, and
`returns_of_history` that every block that can be taken back is, to that effect.
-/

namespace BuddySystem

open Block (around)

namespace Block

/-- The buddy of the aligned block of an order that holds a frame. -/
def buddyAround (base order f : Nat) : Block := (around base order f).buddy base

/-- The buddies that a block meets when it is merged `k` times. -/
def partners (base k : Nat) (b : Block) : Finset Block :=
  (Finset.Ico b.order (b.order + k)).image fun o => buddyAround base o b.pfn

end Block

open Block (buddyAround partners)

variable {base lastOrder k : Nat} {B B' B₁ : Finset Block} {b c : Block}

/-! ### The buddies on the way -/

theorem mem_partners : c ∈ partners base k b ↔
    ∃ o, b.order ≤ o ∧ o < b.order + k ∧ buddyAround base o b.pfn = c := by
  rw [partners, Finset.mem_image]
  simp only [Finset.mem_Ico, and_assoc]

theorem card_partners (base k : Nat) (b : Block) : (partners base k b).card = k := by
  have hinj : Function.Injective fun o => buddyAround base o b.pfn := fun o o' he =>
    congrArg Block.order he
  rw [partners, Finset.card_image_of_injective _ hinj, Nat.card_Ico, Nat.add_sub_cancel_left]

@[simp] theorem partners_zero (base : Nat) (b : Block) : partners base 0 b = ∅ := by
  rw [partners, Nat.add_zero, Finset.Ico_self, Finset.image_empty]

/-- The first partner is the buddy, and the others are those of the parent. -/
theorem partners_succ (hb : b.Aligned base) (k : Nat) :
    partners base (k + 1) b = insert (b.buddy base) (partners base k (b.parent base)) := by
  have hfirst : buddyAround base b.order b.pfn = b.buddy base := by
    rw [buddyAround, hb.around_eq]
  have hrest : ∀ o, b.order < o →
      buddyAround base o (b.parent base).pfn = buddyAround base o b.pfn := by
    intro o ho
    rw [buddyAround, hb.around_parent ho, buddyAround]
  ext c
  rw [Finset.mem_insert, mem_partners, mem_partners, Block.order_parent]
  constructor
  · intro ⟨o, hle, hlt, he⟩
    rcases Nat.lt_or_eq_of_le hle with hgt | heq
    · exact Or.inr ⟨o, hgt, by omega, (hrest o hgt).trans he⟩
    · rw [← he, ← heq, hfirst]
      exact Or.inl rfl
  · intro hc
    rcases hc with he | ⟨o, hle, hlt, he⟩
    · exact ⟨b.order, Nat.le_refl _, by omega, hfirst.trans he.symm⟩
    · exact ⟨o, Nat.le_of_succ_le hle, by omega, (hrest o hle).symm.trans he⟩

/-! ### Cascades -/

/-- **A cascade meets only blocks that were in stock.** -/
theorem Ascends.partners_subset (h : Ascends base B₁ b k B' c) (hB : B₁ ⊆ insert b B)
    (hb : b.Aligned base) : partners base k b ⊆ B := by
  induction h with
  | stay =>
    rw [partners_zero]
    exact Finset.empty_subset B
  | @merge B₁ B' b c k hbuddy _ ih =>
    rw [partners_succ hb]
    apply Finset.insert_subset
    · exact Finset.mem_of_mem_insert_of_ne (hB hbuddy) hb.buddy_ne
    · refine ih (fun d hd => ?_) (Block.aligned_parent base b)
      rcases Finset.mem_insert.mp hd with he | hd
      · rw [he]
        exact Finset.mem_insert_self _ _
      · obtain ⟨hne, hd⟩ := Finset.mem_erase.mp (Finset.mem_of_mem_erase hd)
        exact Finset.mem_insert_of_mem (Finset.mem_of_mem_insert_of_ne (hB hd) hne)

/-- **What a cascade leaves** is the stock without the blocks that it met, and the block around them
all. -/
theorem Settles.eq_insert (h : Settles base lastOrder B b k B') (hb : b.Aligned base) :
    B' = insert (around base (b.order + k) b.pfn) (B \ partners base k b) := by
  induction h with
  | @stay B b _ =>
    rw [partners_zero, Finset.sdiff_empty, Nat.add_zero, hb.around_eq]
  | @merge B B' b k _ _ _ ih =>
    have ho : b.order < b.order + (k + 1) := by omega
    rw [ih (Block.aligned_parent base b), Block.order_parent, Nat.add_assoc, Nat.add_comm 1 k,
      hb.around_parent ho, partners_succ hb, Finset.sdiff_insert, Finset.erase_sdiff_comm]

/-- A cascade ends at the last order, or where the next buddy is not in stock. -/
theorem Settles.stop (h : Settles base lastOrder B b k B') (hb : b.Aligned base) :
    b.order + k = lastOrder ∨ buddyAround base (b.order + k) b.pfn ∉ B := by
  induction h with
  | @stay B b hend =>
    rw [Nat.add_zero, buddyAround, hb.around_eq]
    exact hend
  | @merge B B' b k _ _ _ ih =>
    have ho : b.order < b.order + (k + 1) := by omega
    have hrest := ih (Block.aligned_parent base b)
    rw [Block.order_parent, Nat.add_assoc, Nat.add_comm 1 k, buddyAround,
      hb.around_parent ho] at hrest
    apply hrest.imp_right
    intro hno hm
    refine hno (Finset.mem_erase.mpr ⟨fun he => ?_, hm⟩)
    have horder : b.order + (k + 1) = b.order := congrArg Block.order he
    omega

/-- The stock after a cascade, order by order. -/
theorem Settles.mem_iff (h : Settles base lastOrder B b k B') (hb : b.Aligned base) {p o : Nat} :
    (⟨p, o⟩ : Block) ∈ B' ↔
      (p = (around base (b.order + k) b.pfn).pfn ∧ o = b.order + k) ∨
        ((⟨p, o⟩ : Block) ∈ B ∧
          ¬ (b.order ≤ o ∧ o < b.order + k ∧ p = (buddyAround base o b.pfn).pfn)) := by
  have hlast : (⟨p, o⟩ : Block) = around base (b.order + k) b.pfn ↔
      p = (around base (b.order + k) b.pfn).pfn ∧ o = b.order + k := by
    show (⟨p, o⟩ : Block) = ⟨(around base (b.order + k) b.pfn).pfn, b.order + k⟩ ↔ _
    rw [Block.mk.injEq]
  have hpartner : (⟨p, o⟩ : Block) ∈ partners base k b ↔
      b.order ≤ o ∧ o < b.order + k ∧ p = (buddyAround base o b.pfn).pfn := by
    rw [mem_partners]
    constructor
    · intro ⟨o', hle, hlt, he⟩
      obtain rfl : o' = o := congrArg Block.order he
      exact ⟨hle, hlt, (congrArg Block.pfn he).symm⟩
    · intro ⟨hle, hlt, he⟩
      refine ⟨o, hle, hlt, ?_⟩
      rw [he]
      rfl
  rw [h.eq_insert hb, Finset.mem_insert, Finset.mem_sdiff, hlast, hpartner]

namespace Allocator

/-- The orders at which a cascade that starts with the block can stop. -/
def stops (a : Allocator) (b : Block) : Set Nat :=
  {o | b.order ≤ o ∧ o ≤ a.lastOrder ∧
    (o = a.lastOrder ∨ (buddyAround a.base o b.pfn).pfn ∉ a.heads o)}

/-- The block is taken back, and its cascade stops at the order `top`. -/
structure Returns (a : Allocator) (b : Block) (top : Nat) (a' : Allocator) : Prop where
  /-- Below `top` each list has lost the buddy. -/
  merged : ∀ o, b.order ≤ o → o < top → (buddyAround a.base o b.pfn).pfn ∈ a.heads o ∧
    a'.heads o = (a.heads o).erase (buddyAround a.base o b.pfn).pfn
  /-- At `top` the block that the cascade ended with has come into its place. -/
  listed : (around a.base top b.pfn).pfn ∉ a.heads top ∧
    a'.heads top = (a.heads top).orderedInsert (· ≤ ·) (around a.base top b.pfn).pfn
  others : ∀ o, o < b.order ∨ top < o → a'.heads o = a.heads o
  total : a'.totalFree = a.totalFree + 2 ^ b.order
  restates : Restates a b .allocated .free a'
  counters : a'.counters = { a.counters with
    frees := a.counters.frees + 1
    merges := a.counters.merges + (top - b.order) }
  continues : a.view.Continues a'.view
  orderly : a'.Orderly
  /-- The buddies are computed without an overflow. -/
  buddyOf : ∀ o, b.order ≤ o → o ≤ top →
    (around a.base o b.pfn).buddyOf a.base = .ok (buddyAround a.base o b.pfn)

variable {a a₀ a' : Allocator} {log : List Exchange} {v : Verbosity} {top : Nat}

/-! ### Where a cascade stops -/

theorem Complete.mem_heads_iff (hB : a.Complete B) : b.pfn ∈ a.heads b.order ↔ b ∈ B :=
  (hB.keeps.heads_spells hB.sighted b.order).2 b.pfn

/-- A cascade goes no further than to the first order at which it can stop. -/
theorem le_of_ascends (hB : a.Complete B) (htop : IsLeast (a.stops b) top)
    (hb : b.Aligned a.base) (h : Ascends a.base (insert b B) b k B' c)
    (hk : b.order + k ≤ a.lastOrder) : b.order + k ≤ top := by
  by_contra hlt
  obtain ⟨hle, _, hstop⟩ := htop.1
  have hmem : buddyAround a.base top b.pfn ∈ B :=
    h.partners_subset (Finset.Subset.refl _) hb (mem_partners.mpr ⟨top, hle, by omega, rfl⟩)
  rcases hstop with hlast | hno
  · omega
  · exact hno (hB.mem_heads_iff.mpr hmem)

/-- **A cascade stops at the least order at which it can stop.** -/
theorem isLeast_of_freed (hB : a.Complete B) (hf : Freed ∅ a B b k B' c a') :
    IsLeast (a.stops b) (b.order + k) := by
  have hb : b.Aligned a.base := hf.takes.aligned
  have ho : b.order ≤ a.lastOrder := hf.takes.order_le
  have hle := hf.le
  constructor
  · refine ⟨Nat.le_add_right _ _, by omega, ?_⟩
    apply ((hf.settles hB).stop hb).imp_right
    intro hno hm
    exact hno (hB.mem_heads_iff.mp hm)
  · intro o ⟨hge, _, hstop⟩
    by_contra hlt
    have hmem : buddyAround a.base o b.pfn ∈ B :=
      hf.ascends.partners_subset (Finset.Subset.refl _) hb
        (mem_partners.mpr ⟨o, hge, Nat.lt_of_not_le hlt, rfl⟩)
    rcases hstop with hlast | hno
    · omega
    · exact hno (hB.mem_heads_iff.mpr hmem)

/-! ### One block given back -/

/-- No block around one that can be taken back is in stock. -/
theorem around_not_mem {V : View} (hs : V.Sound B) (ht : V.Takes b) (o : Nat) :
    around V.base o b.pfn ∉ B := by
  intro hm
  have hcov := frames_subset_covered hm (Block.mem_frames_around ht.aligned.1 o)
  exact (ht.allocated b.pfn b.pfn_mem_frames).2 (hs.free hcov)

/-- **What can be read after a block was taken back.** -/
theorem returns_of_freed (hB : a.Complete B) (hf : Freed ∅ a B b k B' c a') :
    Returns a b (b.order + k) a' := by
  have hb : b.Aligned a.base := hf.takes.aligned
  have hs := hB.sighted
  have hs' : a'.view.Sighted B' := by
    intro f _
    rw [hf.view]
    exact congrFun hB.hidden f
  have hsettles := hf.settles hB
  have hmem := fun p o => hsettles.mem_iff hb (p := p) (o := o)
  have hnew : (⟨(around a.base (b.order + k) b.pfn).pfn, b.order + k⟩ : Block) ∉ B :=
    around_not_mem hB.keeps.sound hf.takes (b.order + k)
  have hin : around a.base (b.order + k) b.pfn ∈ B' :=
    (hmem _ _).mpr (Or.inl ⟨rfl, rfl⟩)
  constructor
  · intro o hle hlt
    have hpartner : buddyAround a.base o b.pfn ∈ B :=
      hf.ascends.partners_subset (Finset.Subset.refl _) hb (mem_partners.mpr ⟨o, hle, hlt, rfl⟩)
    refine ⟨hB.mem_heads_iff.mpr hpartner, ?_⟩
    apply hB.keeps.heads_erase hs hf.keeps hs'
    intro p
    have hne : o ≠ b.order + k := Nat.ne_of_lt hlt
    rw [hmem]
    simp [hle, hlt, hne, and_comm]
  · refine ⟨fun hm => hnew (hB.mem_heads_iff.mp hm), ?_⟩
    apply hB.keeps.heads_insert hs hf.keeps hs' hnew
    intro p
    rw [hmem]
    simp
  · intro o ho
    apply hB.keeps.heads_congr hs hf.keeps hs'
    intro p
    rw [hmem]
    constructor
    · intro hp
      rcases hp with ⟨_, hp⟩ | ⟨hp, _⟩
      · omega
      · exact hp
    · intro hp
      exact Or.inr ⟨hp, by omega⟩
  · have hdisj : Disjoint b.frames (covered B) := Finset.disjoint_left.mpr
      fun f hfb hc => (hf.takes.allocated f hfb).2 (hB.keeps.sound.free hc)
    have hcard := Finset.card_union_of_disjoint hdisj
    rw [← hf.covered, Block.card_frames, ← hf.keeps.sound.sum_size, ← hf.keeps.total,
      ← hB.keeps.sound.sum_size, ← hB.keeps.total, Nat.add_comm] at hcard
    exact hcard
  · apply restates_of_view hf.view
    · exact fun f hfb => (hf.takes.allocated f hfb).1
    · exact fun f hfb => iff_of_false (hf.takes.allocated f hfb).2 (by decide)
  · rw [Nat.add_sub_cancel_left]
    exact congrArg View.counters hf.view
  · rw [hf.view]
    rfl
  · exact hf.keeps.orderly hs'
  · intro o hle hlt
    have haligned := Block.aligned_around a.base o b.pfn
    have hsub := haligned.frames_subset (Block.aligned_around a.base (b.order + k) b.pfn) hlt
      (Block.mem_frames_around hb.1 o) (Block.mem_frames_around hb.1 _)
    exact haligned.buddyOf_eq
      (stop_lt_of_subset_run (hsub.trans (hf.keeps.frames_subset_run hin)))

/-- **A block that can be taken back is taken back**, unless a counter is full. -/
theorem free_returns (hB : a.Complete B) (ht : a.view.Takes b) (htop : IsLeast (a.stops b) top)
    (hfrees : a.counters.frees + 1 < Word.limit)
    (hmerges : a.counters.merges + (top - b.order) < Word.limit) :
    (free b).Ends v a (fun _ a' => Returns a b top a') fun _ => False := by
  have ho : b.order ≤ a.lastOrder := ht.order_le
  refine (free_ends hB.keeps b).mono ?_ ?_
  · intro _ a' ⟨k, B', c, hf⟩
    rw [htop.unique (isLeast_of_freed hB hf)]
    exact returns_of_freed hB hf
  · intro a' hfault
    rcases hfault with ⟨hn, _⟩ | ⟨_, hstopped⟩
    · exact hn ht
    · rcases hstopped.cause hB.sighted with hfull | ⟨k, hk, B', c, hascends, hfull⟩
      · omega
      · have hle := le_of_ascends hB htop ht.aligned hascends (by omega)
        omega

/-- **What giving a block back does.**  Every block that the allocator can have and whose frames are
all allocated is taken back, unless a counter is full.  The cascade of merges stops at the least
order at which it can stop. -/
theorem returns_of_history (hfresh : a₀.Fresh) (h : History a₀ log a) (hanswered : Answered log)
    (ho : b.order ≤ a.lastOrder) (ha : b.Aligned a.base)
    (hallocated : ∀ f ∈ b.frames, (a.registry.page? f).map Page.state = some .allocated)
    (v : Verbosity) :
    ∃ top, IsLeast (a.stops b) top ∧
      (a.counters.frees + 1 < Word.limit →
        a.counters.merges + (top - b.order) < Word.limit →
        (perform (.free b) v a).value = .ok .done ∧
          Returns a b top (perform (.free b) v a).state) := by
  obtain ⟨B, hB⟩ := complete_of_history hfresh h fun e he _ _ _ => hanswered e he
  have hlast : a.lastOrder ∈ a.stops b := ⟨ho, Nat.le_refl _, Or.inl rfl⟩
  obtain ⟨top, hmem, hmin⟩ := wellFounded_lt.has_min (a.stops b) ⟨a.lastOrder, hlast⟩
  have htop : IsLeast (a.stops b) top := ⟨hmem, fun o ho => Nat.le_of_not_lt (hmin o ho)⟩
  refine ⟨top, htop, ?_⟩
  intro hfrees hmerges
  have hends : (perform (.free b)).Ends v a
      (fun reply a' => reply = .done ∧ Returns a b top a') fun _ => False := by
    rw [perform]
    refine (free_returns hB (takes_iff.mpr ⟨ho, ha, hallocated⟩) htop hfrees hmerges).bind
      (fun _ hf => hf) ?_
    exact fun _ a' hreturns => ⟨rfl, hreturns⟩
  obtain ⟨reply, a', events, hx, hreply, hreturns⟩ := hends.exists_ok
  rw [hx]
  exact ⟨congrArg Except.ok hreply, hreturns⟩

/-- A page that is merged twice.  The cascade stops at a buddy whose first page is free and belongs
to a smaller block. -/
theorem returns_after_two_merges :
    ∃ a₀ log a, a₀.Fresh ∧ History a₀ log a ∧ Answered log ∧
      a.heads 0 = [4, 7] ∧ a.heads 1 = [5, 9] ∧ a.heads 2 = [] ∧ a.heads 3 = [11] ∧
      (a.registry.page? 7).map Page.state = some .free ∧
      ∃ top, IsLeast (a.stops ⟨3, 0⟩) top ∧
        (perform (.free ⟨3, 0⟩) none a).value = .ok .done ∧
        (perform (.free ⟨3, 0⟩) none a).state.heads 2 = [3] ∧
        Returns a ⟨3, 0⟩ top (perform (.free ⟨3, 0⟩) none a).state := by
  have hrun : ∃ a₀ log a, Fresh a₀ ∧ History a₀ log a ∧ Answered log ∧
      a.heads 0 = [4, 7] ∧ a.heads 1 = [5, 9] ∧ a.heads 2 = [] ∧ a.heads 3 = [11] ∧
      (a.registry.page? 7).map Page.state = some .free ∧ a.lastOrder = 3 ∧
      (⟨3, 0⟩ : Block).Aligned a.base ∧
      (∀ f ∈ (⟨3, 0⟩ : Block).frames, (a.registry.page? f).map Page.state = some .allocated) ∧
      a.counters.frees + 1 < Word.limit ∧ a.counters.merges + 3 < Word.limit ∧
      (perform (.free ⟨3, 0⟩) none a).state.heads 2 = [3] := by
    refine ⟨_, _, _, ⟨4096, 3, 16, 3, _, rfl, rfl⟩,
      .call none (.free ⟨5, 1⟩) (.call none (.free ⟨4, 0⟩) (.call none (.free ⟨7, 0⟩)
        (.call none (.allocate 0 Hints.empty) (.call none (.allocate 0 Hints.empty)
          (.call none (.allocate 1 Hints.empty) (.call none (.allocate 0 Hints.empty)
            (.call none (.allocate 0 Hints.empty) (.call none (.insert 3 16) .start)))))))), ?_⟩
    decide +kernel
  obtain ⟨a₀, log, a, hfresh, h, hanswered, h₀, h₁, h₂, h₃, hfree, hlast, ha, hallocated, hfrees,
    hmerges, hafter⟩ := hrun
  obtain ⟨top, htop, hreturns⟩ :=
    returns_of_history hfresh h hanswered (Nat.zero_le _) ha hallocated none
  have hle : top ≤ a.lastOrder := htop.1.2.1
  obtain ⟨hdone, hreturns⟩ := hreturns hfrees (by show a.counters.merges + (top - 0) < _; omega)
  exact ⟨a₀, log, a, hfresh, h, hanswered, h₀, h₁, h₂, h₃, hfree, top, htop, hdone, hafter,
    hreturns⟩

end Allocator

end BuddySystem
