import BuddySystem.Proofs.Layout

/-!
# What a buddy is

`Block.buddyOf` flips one bit of the distance from a base frame, which need not be a multiple of
anything itself.  If the block is aligned and ends below `Word.limit`, this comes to the block's
buddy (`Buddies`): the one other aligned block of its order that lies inside the same aligned block
of the next order, which the two make up and which starts where the lower of them does.

The buddy can be the last block of all, with its head below the limit and its end above it.  The
way back from the buddy to the block is therefore no case of the way there, and is computed by
`buddyOf_eq_of_lt`, which asks only for the head of the answer to be below the limit.

* `Aligned.frames_subset_parent_iff`: a parent holds two blocks of the order below and no more.
* `Aligned.buddies`: the buddy of an aligned block that ends below the limit.
* `buddyOf_buddies`: `buddyOf` comes to it, and nothing it is computed from overflows.
-/

namespace BuddySystem.Block

variable {base : Nat} {b d : Block}

/-- The block of the next order that starts where the lower of two blocks starts. -/
def joined (b c : Block) : Block := ⟨min b.pfn c.pfn, b.order + 1⟩

/-- The block `c` is the buddy of `b`. -/
structure Buddies (base : Nat) (b c : Block) : Prop where
  order_eq : c.order = b.order
  pfn_eq : c.pfn = base + ((b.pfn - base) ^^^ 2 ^ b.order)
  pfn_lt : c.pfn < Word.limit
  aligned : c.Aligned base
  adjacent : c.pfn = b.pfn + 2 ^ b.order ∨ b.pfn = c.pfn + 2 ^ b.order
  buddyOf_eq : c.buddyOf base = .ok b
  aligned_joined : (joined b c).Aligned base
  disjoint : Disjoint b.frames c.frames
  union_eq : b.frames ∪ c.frames = (joined b c).frames
  /-- There are no other blocks of this order in the joined block. -/
  only : ∀ d : Block, d.order = b.order → d.Aligned base →
    (d.frames ⊆ (joined b c).frames ↔ d = b ∨ d = c)

theorem Aligned.frames_subset_parent_iff (hb : b.Aligned base) (hd : d.Aligned base)
    (ho : d.order = b.order) :
    d.frames ⊆ (b.parent base).frames ↔ d = b ∨ d = b.buddy base := by
  constructor
  · intro hin
    have hparent : b.parent base = around base (b.order + 1) d.pfn :=
      (aligned_parent base b).eq_around (hin d.pfn_mem_frames)
    refine hb.eq_or_eq_buddy hd ?_
    rw [hparent, parent, ho]
  · rintro (rfl | rfl)
    · exact hb.frames_subset_parent
    · exact hb.buddy_subset_parent

/-- **An aligned block and its buddy make up one aligned block**, and each is computed from the
other. -/
theorem Aligned.buddies (h : b.Aligned base) (hlt : b.pfn + b.size < Word.limit) :
    Buddies base b (b.buddy base) := by
  have hjoined : joined b (b.buddy base) = b.parent base := h.merged_eq_parent
  refine ⟨rfl, rfl, Nat.lt_of_le_of_lt h.pfn_buddy_le hlt, h.buddy, ?_, ?_, ?_, h.disjoint_buddy,
    ?_, ?_⟩
  · rcases h.buddy_cases with ⟨he, _⟩ | ⟨he, _⟩
    · exact Or.inl he
    · exact Or.inr he.symm
  · -- The buddy need not end below the limit, so `Aligned.buddyOf_eq` says nothing about it.
    have hback := h.buddy_buddy
    have hhead : ((b.buddy base).buddy base).pfn < Word.limit := by
      rw [hback]
      omega
    rw [buddyOf_eq_of_lt h.buddy.1 hhead, hback]
  · rw [hjoined]
    exact aligned_parent base b
  · rw [hjoined, h.frames_parent]
  · intro d ho hd
    rw [hjoined]
    exact h.frames_subset_parent_iff hd ho

/-- **The buddy is computed without a fault.**  The lengths of the block and of the joined block are
64-bit numbers, and the bit test by which alignment is judged is divisibility. -/
theorem buddyOf_buddies (ho : b.order < 63) (h : b.Aligned base)
    (hlt : b.pfn + b.size < Word.limit) :
    b.pageCount = .ok (2 ^ b.order) ∧
      (∀ n, Word.isAligned n b.size = true ↔ 2 ^ b.order ∣ n) ∧
      ∃ c, b.buddyOf base = .ok c ∧ Buddies base b c ∧
        (joined b c).pageCount = .ok (2 ^ (b.order + 1)) := by
  refine ⟨?_, ?_, b.buddy base, h.buddyOf_eq hlt, h.buddies hlt, ?_⟩
  · exact Word.shiftOne_eq_ok_iff.mpr ⟨Nat.lt_succ_of_lt ho, rfl⟩
  · exact fun n => Word.isAligned_pow_iff
  · exact Word.shiftOne_eq_ok_iff.mpr ⟨Nat.succ_lt_succ ho, rfl⟩

/-- The distance of a block of two frames from an odd base is four, and that of its buddy six.  The
buddy starts at the last 64-bit number. -/
theorem buddies_at_last_frame :
    1 < 63 ∧ (⟨18446744073709551613, 1⟩ : Block).Aligned 18446744073709551609 ∧
      18446744073709551613 + 2 < Word.limit ∧
      (⟨18446744073709551613, 1⟩ : Block).buddyOf 18446744073709551609 =
        .ok ⟨18446744073709551615, 1⟩ ∧
      Buddies 18446744073709551609 ⟨18446744073709551613, 1⟩ ⟨18446744073709551615, 1⟩ := by
  have halign : (⟨18446744073709551613, 1⟩ : Block).Aligned 18446744073709551609 := by decide
  have hvalue : (⟨18446744073709551613, 1⟩ : Block).buddyOf 18446744073709551609 =
      .ok ⟨18446744073709551615, 1⟩ := by decide
  obtain ⟨_, _, c, hc, hbuddies, _⟩ := buddyOf_buddies (by decide) halign (by decide)
  obtain rfl := Except.ok.inj (hc.symm.trans hvalue)
  exact ⟨by decide, halign, by decide, hvalue, hbuddies⟩

end BuddySystem.Block
