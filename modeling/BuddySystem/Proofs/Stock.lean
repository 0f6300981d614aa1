import BuddySystem.Allocator.FreeBlock
import BuddySystem.Proofs.Chain
import BuddySystem.Proofs.Layout
import Mathlib.Algebra.BigOperators.Group.Finset.Basic
import Mathlib.Algebra.Order.BigOperators.Group.Finset

/-!
# The stock of an allocator

The lists of an allocator are meant to hold a set of blocks, its stock.  A stock is
sound for an allocator (`View.Sound`) when its blocks are of the allocator's
orders, aligned and pairwise disjoint, and all of their frames are in the free
state.  `a.Keeps stale B` says that the stock of `a` is the sound set `B`: for each
order the list spells the heads of the blocks of that order, the count of free
pages is the number of frames of `B`, and a frame that heads no block has no link,
unless it is one of the frames in `stale`, whose links nobody has cleared.

The descriptors count here whether they are hidden or not.  What hiding does is to
make an operation stop early: `View.Sighted B` says that no frame of `B` is hidden.

Everything else there is to see of an allocator is its `Allocator.view`.  The
lemmas about the steps say what becomes of the stock and of the view:

* `enlist_ends`, `delist_ends`: a block is added to the stock or taken from it.
  The view stays, and when the block is refused so does everything else.
* `isListed_ends`, `mark_ends`, `count_ends`: the stock stays.
-/

namespace BuddySystem

open Finset (sum_insert)

/-- What there is to see of an allocator besides its lists. -/
structure View extends Survey where
  lastOrder : Nat
  counters : Counters

def covered (B : Finset Block) : Finset Nat := B.biUnion Block.frames

def Survey.run (S : Survey) : Finset Nat := Finset.Ico S.base (S.base + S.frameCount)

def Survey.Reaches (S : Survey) (f : Nat) : Prop := f ∈ S.run ∧ S.hidden f = false

namespace View

/-- The blocks may make up the stock of an allocator. -/
structure Sound (V : View) (B : Finset Block) : Prop where
  order_le : ∀ b ∈ B, b.order ≤ V.lastOrder
  aligned : ∀ b ∈ B, b.Aligned V.base
  free : covered B ⊆ V.free
  disjoint : (B : Set Block).PairwiseDisjoint Block.frames

/-- No frame of the blocks is hidden. -/
def Sighted (V : View) (B : Finset Block) : Prop := ∀ f ∈ covered B, V.hidden f = false

/-- The second view may differ from the first in the free frames and the counters only. -/
def Continues (V V' : View) : Prop := V' = { V with free := V'.free, counters := V'.counters }

end View

namespace Allocator

/-- All of an allocator but its lists. -/
def view (a : Allocator) : View :=
  { a.registry.survey with lastOrder := a.lastOrder, counters := a.counters }

def threaded (a : Allocator) (order : Nat) : Threaded := ⟨a.list order, a.registry⟩

/-- The lists hold just the blocks of `B`, and only frames in `stale` have links besides. -/
structure Keeps (stale : Set Nat) (a : Allocator) (B : Finset Block) : Prop where
  sound : a.view.Sound B
  spells : ∀ o, ∃ xs, (a.threaded o).Spells xs ∧ ∀ p, p ∈ xs ↔ (⟨p, o⟩ : Block) ∈ B
  total : a.totalFree = ∑ b ∈ B, b.size
  idle : ∀ f ∉ stale, (∀ o, (⟨f, o⟩ : Block) ∉ B) → a.registry.link? f = none

end Allocator

variable {V V' V'' : View} {B B' : Finset Block} {b c : Block} {f : Nat}

/-! ### Sets of blocks -/

theorem mem_covered : f ∈ covered B ↔ ∃ b ∈ B, f ∈ b.frames := Finset.mem_biUnion

theorem frames_subset_covered (hb : b ∈ B) : b.frames ⊆ covered B :=
  Finset.subset_biUnion_of_mem Block.frames hb

@[simp] theorem covered_insert : covered (insert b B) = b.frames ∪ covered B :=
  Finset.biUnion_insert

@[simp] theorem covered_union : covered (B ∪ B') = covered B ∪ covered B' :=
  Finset.union_biUnion

theorem covered_mono (h : B ⊆ B') : covered B ⊆ covered B' :=
  Finset.biUnion_subset_biUnion_of_subset_left _ h

/-- What is free and not covered stays the same when covered frames are taken away. -/
theorem sdiff_sdiff_of_subset {free C F : Finset Nat} (h : F ⊆ C) :
    (free \ F) \ (C \ F) = free \ C := by
  ext f
  have hf := @h f
  simp only [Finset.mem_sdiff]
  tauto

/-- What is free and not covered stays the same when new frames are freed and covered. -/
theorem union_sdiff_of_new {free C F : Finset Nat} (h : ∀ f ∈ F, f ∉ free) :
    (free ∪ F) \ (F ∪ C) = free \ C := by
  ext f
  have hf := h f
  simp only [Finset.mem_sdiff, Finset.mem_union]
  tauto

namespace View

theorem Continues.refl (V : View) : V.Continues V := rfl

theorem Continues.trans (h : V.Continues V') (h' : V'.Continues V'') : V.Continues V'' := by
  unfold Continues at h h' ⊢
  rw [h', h]

theorem Continues.sighted (h : V.Continues V') (hB : V.Sighted B) : V'.Sighted B := by
  rw [h]
  exact hB

/-- A stock is judged by the orders, the base and the free frames. -/
theorem Sound.congr (h : V.Sound B) (hV : V.Continues V') (hfree : covered B ⊆ V'.free) :
    V'.Sound B where
  order_le := by
    rw [hV]
    exact h.order_le
  aligned := by
    rw [hV]
    exact h.aligned
  free := hfree
  disjoint := h.disjoint

theorem Sound.mono (h : V.Sound B) (hB : B' ⊆ B) : V.Sound B' where
  order_le := fun b hb => h.order_le b (hB hb)
  aligned := fun b hb => h.aligned b (hB hb)
  free := (covered_mono hB).trans h.free
  disjoint := h.disjoint.subset (Finset.coe_subset.mpr hB)

/-- A stock of one more block is sound if the block is and meets no other. -/
theorem Sound.add (h : V.Sound B) (ho : b.order ≤ V.lastOrder) (ha : b.Aligned V.base)
    (hf : b.frames ⊆ V.free) (hd : Disjoint b.frames (covered B)) : V.Sound (insert b B) where
  order_le := by
    intro c hc
    rcases Finset.mem_insert.mp hc with rfl | hc
    · exact ho
    · exact h.order_le c hc
  aligned := by
    intro c hc
    rcases Finset.mem_insert.mp hc with rfl | hc
    · exact ha
    · exact h.aligned c hc
  free := by
    rw [covered_insert]
    exact Finset.union_subset hf h.free
  disjoint := by
    rw [Finset.coe_insert]
    exact h.disjoint.insert fun c hc _ => hd.mono_right (frames_subset_covered hc)

theorem Sound.eq_of_mem (h : V.Sound B) (hb : b ∈ B) (hc : c ∈ B) (hfb : f ∈ b.frames)
    (hfc : f ∈ c.frames) : b = c := by
  by_contra hne
  exact Finset.disjoint_left.mp (h.disjoint hb hc hne) hfb hfc

theorem Sound.eq_of_pfn_eq (h : V.Sound B) (hb : b ∈ B) (hc : c ∈ B) (he : b.pfn = c.pfn) :
    b = c :=
  h.eq_of_mem hb hc b.pfn_mem_frames (he ▸ c.pfn_mem_frames)

theorem Sound.covered_sdiff (h : V.Sound B) (hB : B' ⊆ B) :
    covered (B \ B') = covered B \ covered B' := by
  ext f
  rw [Finset.mem_sdiff, mem_covered, mem_covered, mem_covered]
  constructor
  · rintro ⟨c, hc, hf⟩
    obtain ⟨hc, hne⟩ := Finset.mem_sdiff.mp hc
    exact ⟨⟨c, hc, hf⟩, fun ⟨d, hd, hfd⟩ => hne (h.eq_of_mem hc (hB hd) hf hfd ▸ hd)⟩
  · rintro ⟨⟨c, hc, hf⟩, hno⟩
    exact ⟨c, Finset.mem_sdiff.mpr ⟨hc, fun hd => hno ⟨c, hd, hf⟩⟩, hf⟩

theorem Sound.covered_erase (h : V.Sound B) (hb : b ∈ B) :
    covered (B.erase b) = covered B \ b.frames := by
  rw [← Finset.sdiff_singleton_eq_erase, h.covered_sdiff (Finset.singleton_subset_iff.mpr hb)]
  exact congrArg (covered B \ ·) Finset.singleton_biUnion

theorem Sound.disjoint_erase (h : V.Sound B) (hb : b ∈ B) :
    Disjoint b.frames (covered (B.erase b)) := by
  rw [h.covered_erase hb]
  exact Finset.disjoint_sdiff

/-- **The blocks of a sound stock have as many pages as they cover frames.** -/
theorem Sound.sum_size (h : V.Sound B) : ∑ b ∈ B, b.size = (covered B).card := by
  rw [covered, Finset.card_biUnion fun b hb c hc hne => h.disjoint hb hc hne]
  simp

theorem Sound.card_le (h : V.Sound B) : B.card ≤ (covered B).card := by
  rw [← h.sum_size, Finset.card_eq_sum_ones]
  exact Finset.sum_le_sum fun b _ => b.size_pos

end View

namespace Allocator

variable {a a' : Allocator} {stale : Set Nat} {v : Verbosity}

/-! ### The frames of an allocator -/

theorem has_iff_reaches : a.registry.has f = true ↔ a.view.Reaches f := Registry.has_iff

theorem view_free_subset (a : Allocator) : a.view.free ⊆ a.view.run :=
  a.registry.freeFrames_subset

theorem view_limit (a : Allocator) : a.view.base + a.view.frameCount < Word.limit :=
  a.registry.base_add_frameCount_lt

/-- The frame after one of the registry has a 64-bit number. -/
theorem succ_lt_of_mem_run (hf : f ∈ a.view.run) : f + 1 < Word.limit :=
  Nat.lt_of_le_of_lt (Finset.mem_Ico.mp hf).2 a.view_limit

theorem card_covered_lt (h : a.view.Sound B) : (covered B).card < Word.limit := by
  have hle := Finset.card_le_card (h.free.trans a.view_free_subset)
  have hlt := a.view_limit
  rw [Survey.run, Nat.card_Ico] at hle
  omega

theorem inside_of_subset_run (hf : b.frames ⊆ a.view.run) :
    a.view.base ≤ b.pfn ∧ b.pfn + b.size ≤ a.view.base + a.view.frameCount :=
  Block.frames_subset_Ico_iff.mp hf

theorem stop_lt_of_subset_run (hf : b.frames ⊆ a.view.run) : b.pfn + b.size < Word.limit :=
  Nat.lt_of_le_of_lt (inside_of_subset_run hf).2 a.view_limit

theorem Keeps.frames_subset_run (h : a.Keeps stale B) (hb : b ∈ B) : b.frames ⊆ a.view.run :=
  ((frames_subset_covered hb).trans h.sound.free).trans a.view_free_subset

/-! ### Changing one list -/

def setList (a : Allocator) (order : Nat) (t : Threaded) : Allocator :=
  { a with registry := t.registry, lists := a.lists.setIfInBounds order t.list }

theorem list_setList {order : Nat} {t : Threaded} (ho : order ≤ maxOrder) (o : Nat) :
    (a.setList order t).list o = if o = order then t.list else a.list o := by
  rw [list, setList]
  by_cases he : o = order
  · subst he
    rw [if_pos rfl, Vector.getElem?_setIfInBounds_self_of_lt (by omega)]
    rfl
  · rw [if_neg he, Vector.getElem?_setIfInBounds_ne (Ne.symm he)]
    rfl

theorem setList_threaded (a : Allocator) (order : Nat) :
    a.setList order (a.threaded order) = a := by
  have hlists : a.lists.setIfInBounds order (a.list order) = a.lists := by
    ext i hi
    rw [Vector.getElem_setIfInBounds]
    split
    · rename_i he
      subst he
      rw [list, Vector.getElem?_eq_getElem hi]
      rfl
    · rfl
  rw [setList, threaded, hlists]

theorem onList_apply {α : Type} (order : Nat) (op : Op Threaded α) :
    onList order op v a = match op v (a.threaded order) with
      | ⟨value, t, events⟩ => ⟨value, a.setList order t, events⟩ := rfl

/-- What an operation on one list ends in, the allocator ends in with that list. -/
theorem onList_ends {α : Type} {order : Nat} {op : Op Threaded α} {Q : α → Threaded → Prop}
    {E : Threaded → Prop} (h : op.Ends v (a.threaded order) Q E) :
    (onList order op).Ends v a (fun x a' => ∃ t, Q x t ∧ a' = a.setList order t)
      fun a' => ∃ t, E t ∧ a' = a.setList order t := by
  unfold Op.Ends at h ⊢
  rw [onList_apply]
  rcases hx : op v (a.threaded order) with ⟨fault | x, t, events⟩ <;> rw [hx] at h <;>
    exact ⟨t, h, rfl⟩

/-- **A stock after a change of one list.**  The other lists keep their blocks if no link of theirs
was written. -/
theorem Keeps.setList {order total : Nat} {t : Threaded} {frames ys : List Nat}
    (h : a.Keeps stale B) (ho : order ≤ maxOrder) (hsound : a.view.Sound B')
    (hrel : (a.threaded order).Relinks frames t) (hspells : t.Spells ys)
    (hys : ∀ p, p ∈ ys ↔ (⟨p, order⟩ : Block) ∈ B')
    (hother : ∀ b, b.order ≠ order → (b ∈ B' ↔ b ∈ B))
    (hframes : ∀ b ∈ B, b.order ≠ order → b.pfn ∉ frames)
    (hidle : ∀ f ∉ stale, (∀ o, (⟨f, o⟩ : Block) ∉ B') → t.registry.link? f = none)
    (htotal : total = ∑ b ∈ B', b.size) :
    ({ a.setList order t with totalFree := total } : Allocator).Keeps stale B' ∧
      ({ a.setList order t with totalFree := total } : Allocator).view = a.view := by
  have hview : ({ a.setList order t with totalFree := total } : Allocator).view = a.view := by
    change ({ t.registry.survey with .. } : View) = _
    rw [hrel.survey]
    rfl
  refine ⟨⟨?_, fun o => ?_, htotal, hidle⟩, hview⟩
  · rw [hview]
    exact hsound
  · have hlist := list_setList (a := a) (t := t) ho o
    by_cases he : o = order
    · subst he
      rw [if_pos rfl] at hlist
      exact ⟨ys, hspells.congr hlist fun _ _ => rfl, hys⟩
    · rw [if_neg he] at hlist
      obtain ⟨xs, hxs, hmem⟩ := h.spells o
      refine ⟨xs, hxs.congr hlist fun x hx => ?_, fun p => ?_⟩
      · exact hrel.link x (hframes ⟨x, o⟩ ((hmem x).mp hx) he)
      · rw [hmem, hother ⟨p, o⟩ he]

theorem Keeps.pfn_unique (h : a.Keeps stale B) (hb : b ∈ B) {o : Nat}
    (ho : (⟨b.pfn, o⟩ : Block) ∈ B) : b.order = o :=
  congrArg Block.order (h.sound.eq_of_pfn_eq hb ho rfl)

/-- An allocator has one stock. -/
theorem Keeps.unique {stale stale' : Set Nat} (h : a.Keeps stale B) (h' : a.Keeps stale' B') :
    B = B' := by
  ext b
  obtain ⟨xs, hxs, hmem⟩ := h.spells b.order
  obtain ⟨ys, hys, hmem'⟩ := h'.spells b.order
  rw [hxs.unique hys] at hmem
  exact (hmem b.pfn).symm.trans (hmem' b.pfn)

theorem length_le_card {o : Nat} {xs : List Nat} (hxs : (a.threaded o).Spells xs)
    (hmem : ∀ p, p ∈ xs ↔ (⟨p, o⟩ : Block) ∈ B) : xs.length ≤ B.card := by
  rw [← List.toFinset_card_of_nodup hxs.nodup]
  refine Finset.card_le_card_of_injOn (fun p => ⟨p, o⟩) (fun p hp => ?_) fun p _ q _ he => ?_
  · exact (hmem p).mp (List.mem_toFinset.mp hp)
  · exact congrArg Block.pfn he

theorem sighted_insert :
    V.Sighted (insert b B) ↔ (∀ f ∈ b.frames, V.hidden f = false) ∧ V.Sighted B := by
  unfold View.Sighted
  rw [covered_insert]
  constructor
  · exact fun h => ⟨fun f hf => h f (Finset.mem_union_left _ hf),
      fun f hf => h f (Finset.mem_union_right _ hf)⟩
  · rintro ⟨h1, h2⟩ f hf
    exact (Finset.mem_union.mp hf).elim (h1 f) (h2 f)

/-- Where no block in stock is hidden, every frame in a list can be reached. -/
theorem reaches_of_sighted (hs : a.view.Sound B) (h : a.view.Sighted B) (hf : f ∈ covered B) :
    a.registry.has f = true :=
  has_iff_reaches.mpr ⟨a.view_free_subset (hs.free hf), h f hf⟩

/-! ### Single blocks -/

theorem ensureFits_ends {action : BlockAction} {Q : Unit → Allocator → Prop}
    {E : Allocator → Prop} (hQ : b.order ≤ a.lastOrder → b.Aligned a.base → Q () a)
    (hE : ¬ (b.order ≤ a.lastOrder ∧ b.Aligned a.base) → E a) :
    (ensureFits action b).Ends v a Q E := by
  unfold ensureFits
  rw [Op.ends_bind, Op.ends_ensure]
  refine ⟨fun ho => ?_, fun ho => hE fun h => ho h.1⟩
  rw [Op.ends_ensure]
  refine ⟨fun ha => hQ ho (Block.isAligned_iff.mp ha), fun ha => hE fun h => ?_⟩
  exact ha (Block.isAligned_iff.mpr h.2)

/-- **A block comes into stock.**  It is refused only if it or a block in stock is hidden, and then
nothing changes. -/
theorem enlist_ends (h : a.Keeps stale B) (hs : a.view.Sound (insert b B)) (hb : b ∉ B) :
    (enlist b).Ends v a (fun _ a' => a'.Keeps stale (insert b B) ∧ a'.view = a.view)
      fun a' => a' = a ∧ ¬ a.view.Sighted (insert b B) := by
  have hbmem : b ∈ insert b B := Finset.mem_insert_self b B
  have hsum : ∑ c ∈ insert b B, c.size = a.totalFree + b.size := by
    rw [sum_insert hb, h.total, Nat.add_comm]
  have hlt : a.totalFree + b.size < Word.limit := by
    rw [← hsum, hs.sum_size]
    exact card_covered_lt hs
  have ho : b.order ≤ maxOrder := (hs.order_le b hbmem).trans a.lastOrder_le
  obtain ⟨xs, hxs, hmem⟩ := h.spells b.order
  have hlen : xs.length + 1 < Word.limit := by
    have h1 := length_le_card hxs hmem
    have h2 := hs.card_le
    have h3 := card_covered_lt hs
    rw [Finset.card_insert_of_notMem hb] at h2
    omega
  unfold enlist
  rw [Op.ends_bind]
  refine ensureFits_ends (fun _ _ => ?_)
    fun hn => absurd ⟨hs.order_le b hbmem, hs.aligned b hbmem⟩ hn
  refine (onList_ends (FreeList.insert_ends hxs hlen)).bind (fun _ ⟨_, hf, _⟩ => hf.elim) ?_
  rintro yes _ ⟨t, ⟨rfl, hnot, _, hrel, ys, hys, hysmem⟩ | ⟨rfl, rfl, hwhy⟩, rfl⟩
  · rw [if_pos rfl]
    unfold addFree
    rw [Op.ends_bind]
    refine Op.Ends.compute (Word.add_eq_ok_iff.mpr ⟨rfl, hlt⟩) ?_
    rw [Op.ends_modify]
    refine h.setList ho hs hrel hys (fun p => ?_) (fun c hc => ?_) (fun c hc hco => ?_)
      (fun f hf hidle => ?_) hsum.symm
    · rw [hysmem, hmem, Finset.mem_insert]
      exact or_congr_left ⟨fun he => he ▸ rfl, fun he => congrArg Block.pfn he⟩
    · rw [Finset.mem_insert]
      exact or_iff_right fun he => hc (he ▸ rfl)
    · intro hm
      rcases List.mem_cons.mp hm with he | hm
      · exact hco (congrArg Block.order
          (hs.eq_of_pfn_eq (Finset.mem_insert_of_mem hc) hbmem he))
      · exact hco (h.pfn_unique hc ((hmem _).mp hm))
    · have hfb : f ≠ b.pfn := by
        rintro rfl
        exact hidle b.order hbmem
      have hfx : f ∉ xs := fun hm =>
        hidle b.order (Finset.mem_insert_of_mem ((hmem f).mp hm))
      rw [hrel.link f (List.not_mem_cons_of_ne_of_not_mem hfb hfx)]
      exact h.idle f hf fun o hm => hidle o (Finset.mem_insert_of_mem hm)
  · rw [if_neg Bool.false_ne_true, Op.ends_fail]
    refine ⟨setList_threaded a b.order, fun hsight => ?_⟩
    have hreach := fun f => reaches_of_sighted (f := f) hs hsight
    rcases hwhy with hin | hhid | ⟨x, hx, _, hhid⟩
    · exact hb ((hmem b.pfn).mp hin)
    · exact absurd (hreach b.pfn (frames_subset_covered hbmem b.pfn_mem_frames))
        (Bool.eq_false_iff.mp hhid)
    · have hxB : (⟨x, b.order⟩ : Block) ∈ insert b B :=
        Finset.mem_insert_of_mem ((hmem x).mp hx)
      exact absurd (hreach x (frames_subset_covered hxB (Block.pfn_mem_frames _)))
        (Bool.eq_false_iff.mp hhid)

/-- **A block leaves the stock.**  It is kept only if a block in stock is hidden, and then nothing
changes. -/
theorem delist_ends (h : a.Keeps stale B) (hb : b ∈ B) :
    (delist b).Ends v a (fun _ a' => a'.Keeps stale (B.erase b) ∧ a'.view = a.view)
      fun a' => a' = a ∧ ¬ a.view.Sighted B := by
  have hs := h.sound
  have hsum : ∑ c ∈ B.erase b, c.size + b.size = a.totalFree := by
    rw [h.total]
    exact Finset.sum_erase_add B Block.size hb
  have ho : b.order ≤ maxOrder := (hs.order_le b hb).trans a.lastOrder_le
  obtain ⟨xs, hxs, hmem⟩ := h.spells b.order
  unfold delist
  rw [Op.ends_bind]
  refine ensureFits_ends (fun _ _ => ?_)
    fun hn => absurd ⟨hs.order_le b hb, hs.aligned b hb⟩ hn
  refine (onList_ends (FreeList.remove_ends hxs)).bind (fun _ ⟨_, hf, _⟩ => hf.elim) ?_
  rintro yes _ ⟨t, ⟨rfl, hin, hrel, hnone, ys, hys, hysmem⟩ | ⟨rfl, rfl, hwhy⟩, rfl⟩
  · rw [if_pos rfl]
    unfold subFree
    rw [Op.ends_bind]
    have hle : b.size ≤ a.totalFree := by omega
    refine Op.Ends.compute (Word.sub_eq_ok_iff.mpr ⟨hle, rfl⟩) ?_
    rw [Op.ends_modify]
    refine h.setList ho (hs.mono (Finset.erase_subset b B)) hrel hys (fun p => ?_)
      (fun c hc => ?_) (fun c hc hco hm => ?_) (fun f hf hidle => ?_)
      (Nat.sub_eq_of_eq_add hsum.symm)
    · rw [hysmem, hmem, Finset.mem_erase, and_comm]
      exact and_congr_left' (not_congr ⟨fun he => he ▸ rfl, fun he => congrArg Block.pfn he⟩)
    · rw [Finset.mem_erase]
      exact and_iff_right fun he => hc (he ▸ rfl)
    · exact hco (h.pfn_unique hc ((hmem _).mp hm))
    · by_cases hfb : f = b.pfn
      · rw [hfb]
        exact hnone
      have hout : ∀ o, (⟨f, o⟩ : Block) ∉ B := fun o hm =>
        hidle o (Finset.mem_erase.mpr ⟨fun he => hfb (congrArg Block.pfn he), hm⟩)
      rw [hrel.link f fun hm => hout b.order ((hmem f).mp hm)]
      exact h.idle f hf hout
  · rw [if_neg Bool.false_ne_true, Op.ends_fail]
    refine ⟨setList_threaded a b.order, fun hsight => ?_⟩
    rcases hwhy with hnot | ⟨x, hx, _, hhid⟩
    · exact hnot ((hmem b.pfn).mpr hb)
    · have hxB : (⟨x, b.order⟩ : Block) ∈ B := (hmem x).mp hx
      exact absurd (reaches_of_sighted hs hsight
        (frames_subset_covered hxB (Block.pfn_mem_frames _))) (Bool.eq_false_iff.mp hhid)

/-- **Asking for a block changes nothing.**  A block in stock is missed only if a block in stock is
hidden. -/
theorem isListed_ends (h : a.Keeps stale B) :
    (isListed b).Ends v a
      (fun yes a' => a' = a ∧ if yes then b ∈ B else a.view.Sighted B → b ∉ B)
      fun _ => False := by
  obtain ⟨xs, hxs, hmem⟩ := h.spells b.order
  have hends : (FreeList.contains b.pfn).Ends v (a.threaded b.order) _ _ :=
    FreeList.contains_ends hxs
  refine (onList_ends hends).mono ?_
    fun _ ⟨_, hf, _⟩ => hf.elim
  rintro yes _ ⟨t, ⟨rfl, hyes⟩, rfl⟩
  refine ⟨setList_threaded a b.order, ?_⟩
  cases yes with
  | true => exact (hmem b.pfn).mp hyes
  | false =>
    intro hsight hb
    rcases hyes with hnot | ⟨x, hx, _, hhid⟩
    · exact hnot ((hmem b.pfn).mpr hb)
    · have hxB : (⟨x, b.order⟩ : Block) ∈ B := (hmem x).mp hx
      exact absurd (reaches_of_sighted h.sound hsight
        (frames_subset_covered hxB (Block.pfn_mem_frames _))) (Bool.eq_false_iff.mp hhid)

/-! ### States and counters -/

/-- A stock is kept by what leaves the lists, their links and the count of free pages. -/
theorem Keeps.congr (h : a.Keeps stale B) (hs : a'.view.Sound B) (hlist : ∀ o, a'.list o = a.list o)
    (hlink : ∀ f, a'.registry.link? f = a.registry.link? f) (htotal : a'.totalFree = a.totalFree) :
    a'.Keeps stale B where
  sound := hs
  spells := by
    intro o
    obtain ⟨xs, hxs, hmem⟩ := h.spells o
    exact ⟨xs, hxs.congr (hlist o) fun x _ => hlink x, hmem⟩
  total := htotal.trans h.total
  idle := fun f hf hidle => (hlink f).trans (h.idle f hf hidle)

theorem writeState_apply (state : PageState) (count pfn : Nat) :
    writeState state count pfn v a =
      match (Registry.mark state count pfn a.registry).2 with
      | none => ⟨.ok (), { a with registry := (Registry.mark state count pfn a.registry).1 }, []⟩
      | some f => ⟨.error (.missingPage f),
          { a with registry := (Registry.mark state count pfn a.registry).1 }, []⟩ := rfl

/-- The state has been written into the frames from `start` to `stop`, and nothing else has been
written. -/
structure Marks (state : PageState) (start stop : Nat) (a a' : Allocator) : Prop where
  reaches : ∀ f ∈ Finset.Ico start stop, a.view.Reaches f
  view : a'.view = { a.view with free := state.write a.view.free (Finset.Ico start stop) }
  link : ∀ f, a'.registry.link? f = a.registry.link? f
  rest : a' = { a with registry := a'.registry }

theorem Marks.continues {state : PageState} {start stop : Nat}
    (hm : Marks state start stop a a') : a.view.Continues a'.view := by
  rw [hm.view]
  rfl

/-- **Writing a state keeps the stock**, if no frame in stock is marked as allocated.  It stops at
the first frame that is out of reach. -/
theorem writeState_ends (h : a.Keeps stale B) (state : PageState) (count pfn : Nat)
    (hsafe : state = .allocated → Disjoint (covered B) (Finset.Ico pfn (pfn + count))) :
    (writeState state count pfn).Ends v a
      (fun _ a' => a'.Keeps stale B ∧ Marks state pfn (pfn + count) a a')
      fun a' => a'.Keeps stale B ∧ ∃ mid ∈ Finset.Ico pfn (pfn + count),
        ¬ a.view.Reaches mid ∧ Marks state pfn mid a a' := by
  obtain ⟨n, hn, hhas, hlink, hsurvey, hend⟩ := Registry.mark_cases state count pfn a.registry
  have hsub : Finset.Ico pfn (pfn + n) ⊆ Finset.Ico pfn (pfn + count) :=
    Finset.Ico_subset_Ico_right (by omega)
  have hmarks : Marks state pfn (pfn + n) a
      { a with registry := (Registry.mark state count pfn a.registry).1 } := by
    refine ⟨fun f hf => has_iff_reaches.mp (hhas f hf), ?_, hlink, rfl⟩
    change ({ (Registry.mark state count pfn a.registry).1.survey with .. } : View) = _
    rw [hsurvey]
    rfl
  have hkeeps : ({ a with registry := (Registry.mark state count pfn a.registry).1 } :
      Allocator).Keeps stale B := by
    refine h.congr (h.sound.congr hmarks.continues ?_) (fun _ => rfl) hlink rfl
    rw [hmarks.view]
    cases state with
    | free => exact h.sound.free.trans Finset.subset_union_left
    | allocated =>
      exact Finset.subset_sdiff.mpr ⟨h.sound.free, (hsafe rfl).mono_right hsub⟩
  unfold Op.Ends
  rw [writeState_apply]
  rcases hend with ⟨hnone, rfl⟩ | ⟨hsome, hlt, hhid⟩
  · rw [hnone]
    exact ⟨hkeeps, hmarks⟩
  · rw [hsome]
    refine ⟨hkeeps, pfn + n, Finset.mem_Ico.mpr ⟨by omega, by omega⟩, fun hreach => ?_, hmarks⟩
    exact absurd (has_iff_reaches.mpr hreach) (Bool.eq_false_iff.mp hhid)

/-- Marking is writing the state where the frame after the marked ones has a 64-bit number. -/
theorem mark_ends (h : a.Keeps stale B) (state : PageState) {count pfn : Nat}
    (hlt : pfn + count < Word.limit)
    (hsafe : state = .allocated → Disjoint (covered B) (Finset.Ico pfn (pfn + count))) :
    (mark state count pfn).Ends v a
      (fun _ a' => a'.Keeps stale B ∧ Marks state pfn (pfn + count) a a')
      fun a' => a'.Keeps stale B ∧ ∃ mid ∈ Finset.Ico pfn (pfn + count),
        ¬ a.view.Reaches mid ∧ Marks state pfn mid a a' := by
  unfold mark
  rw [Op.ends_bind]
  exact Op.Ends.compute (Word.add_eq_ok_iff.mpr ⟨rfl, hlt⟩) (writeState_ends h state count pfn hsafe)

/-- **Counting keeps the stock.**  It faults only if the counter is full. -/
theorem count_ends (h : a.Keeps stale B) (get : Counters → Nat)
    (set : Nat → Counters → Counters) :
    (count get set).Ends v a
      (fun _ a' => a'.Keeps stale B ∧
        a'.view = { a.view with counters := set (get a.counters + 1) a.counters })
      fun a' => a' = a ∧ Word.limit ≤ get a.counters + 1 := by
  unfold count
  rw [Op.ends_bind, Op.ends_compute]
  refine ⟨fun n hn => ?_, fun fault hf => ⟨rfl, Word.limit_le_of_add_error hf⟩⟩
  obtain ⟨rfl, _⟩ := Word.add_eq_ok_iff.mp hn
  rw [Op.ends_modify]
  exact ⟨h.congr (h.sound.congr rfl h.sound.free) (fun _ => rfl) (fun _ => rfl) rfl, rfl⟩

end Allocator

end BuddySystem
