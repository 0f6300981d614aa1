import BuddySystem.Proofs.Custody
import Mathlib.Data.List.Sort

/-!
# Giving blocks back in any order

A block that comes back settles in the stock: it is merged with its buddy, and the
larger block with its buddy again, for as long as the buddy is in stock.  `Settles`
says so about one block and `AllSettle` about a list of them, one after the other.

A cascade can use up a block that another one would have met, or stop at a buddy that
comes back later.  What is left does not depend on that: of two blocks that do not
overlap, either can settle first, with the same stock in the end and as many merges
altogether (`Settles.comm`).  Hence blocks settle in any order alike (`AllSettle.perm`).

An allocator whose descriptors are all in sight is determined by its stock and its view
(`Keeps.ext`), so blocks that are given back in different orders leave one and the same
allocator.  That is `eq_of_given_back`.
-/

namespace BuddySystem

/-- The block `b`, which is not in the stock `B`, comes into it and is merged `k` times until its
buddy is not in stock or the order is the last one.  This leaves the stock `B'`. -/
inductive Settles (base lastOrder : Nat) : Finset Block → Block → Nat → Finset Block → Prop
  | stay {B : Finset Block} {b : Block} : b.order = lastOrder ∨ b.buddy base ∉ B →
      Settles base lastOrder B b 0 (insert b B)
  | merge {B B' : Finset Block} {b : Block} {k : Nat} : b.order < lastOrder → b.buddy base ∈ B →
      Settles base lastOrder (B.erase (b.buddy base)) (b.parent base) k B' →
      Settles base lastOrder B b (k + 1) B'

/-- The blocks settle one after the other, the last one of the list first. -/
inductive AllSettle (base lastOrder : Nat) (B : Finset Block) :
    List Block → Nat → Finset Block → Prop
  | nil : AllSettle base lastOrder B [] 0 B
  | cons {B₁ B' : Finset Block} {b : Block} {blocks : List Block} {k n : Nat} :
      AllSettle base lastOrder B blocks n B₁ → Settles base lastOrder B₁ b k B' →
      AllSettle base lastOrder B (b :: blocks) (n + k) B'

/-- The blocks are aligned and overlap neither each other nor a block in stock. -/
structure Separate (base : Nat) (B : Finset Block) (blocks : List Block) : Prop where
  aligned : ∀ b ∈ blocks, b.Aligned base
  pairwise : blocks.Pairwise fun b c => Disjoint b.frames c.frames
  outside : ∀ b ∈ blocks, Disjoint b.frames (covered B)

variable {base lastOrder k n : Nat} {B B' B₁ B₂ : Finset Block} {b c d : Block}
  {blocks blocks' : List Block}

theorem Block.not_subset_of_disjoint (h : Disjoint b.frames c.frames) : ¬ b.frames ⊆ c.frames :=
  fun hsub => Finset.disjoint_left.mp h b.pfn_mem_frames (hsub b.pfn_mem_frames)

theorem not_subset_of_outside (h : Disjoint b.frames (covered B)) :
    ∀ d ∈ B, ¬ b.frames ⊆ d.frames := fun _ hd =>
  Block.not_subset_of_disjoint (h.mono_right (frames_subset_covered hd))

/-! ### One block -/

namespace Settles

theorem unique {k' : Nat} {B'' : Finset Block} (h : Settles base lastOrder B b k B')
    (h' : Settles base lastOrder B b k' B'') : k = k' ∧ B' = B'' := by
  induction h generalizing k' with
  | stay hend =>
    cases h' with
    | stay _ => exact ⟨rfl, rfl⟩
    | merge ho hbuddy _ =>
      rcases hend with hlast | hno
      · exact absurd hlast (Nat.ne_of_lt ho)
      · exact absurd hbuddy hno
  | merge ho hbuddy _ ih =>
    cases h' with
    | stay hend =>
      rcases hend with hlast | hno
      · exact absurd hlast (Nat.ne_of_lt ho)
      · exact absurd hbuddy hno
    | merge _ _ hrest =>
      obtain ⟨hk, hB⟩ := ih hrest
      exact ⟨congrArg (· + 1) hk, hB⟩

theorem le (h : Settles base lastOrder B b k B') : k ≤ lastOrder - b.order := by
  induction h with
  | stay _ => exact Nat.zero_le _
  | merge ho _ _ ih =>
    rw [Block.order_parent] at ih
    omega

/-- A block that overlaps neither the stock nor the block that settles overlaps nothing then. -/
theorem disjoint (h : Settles base lastOrder B b k B') (hb : b.Aligned base)
    (hB : Disjoint c.frames (covered B)) (hbc : Disjoint c.frames b.frames) :
    Disjoint c.frames (covered B') := by
  induction h with
  | stay _ =>
    rw [covered_insert]
    exact Finset.disjoint_union_right.mpr ⟨hbc, hB⟩
  | @merge B B' b k _ hbuddy _ ih =>
    refine ih (Block.aligned_parent base b) (hB.mono_right (covered_mono (Finset.erase_subset _ B)))
      ?_
    rw [hb.frames_parent]
    exact Finset.disjoint_union_right.mpr ⟨hbc, hB.mono_right (frames_subset_covered hbuddy)⟩

/-- A block that does not contain the one that settles does not come into stock by that. -/
theorem not_mem (h : Settles base lastOrder B c k B') (hc : c.Aligned base) (hd : d ∉ B)
    (hcd : ¬ c.frames ⊆ d.frames) : d ∉ B' := by
  induction h with
  | stay _ =>
    intro hm
    rcases Finset.mem_insert.mp hm with rfl | hm
    · exact hcd (Finset.Subset.refl _)
    · exact hd hm
  | @merge B B' c k _ _ _ ih =>
    exact ih (Block.aligned_parent base c) (fun hm => hd (Finset.mem_of_mem_erase hm))
      fun hsub => hcd (hc.frames_subset_parent.trans hsub)

/-- **A further block in stock makes no difference** to a block that its buddy does not contain. -/
theorem insert_block (h : Settles base lastOrder B c k B') (hc : c.Aligned base) (hd : d ∉ B)
    (hcd : ¬ c.frames ⊆ (d.buddy base).frames) :
    Settles base lastOrder (insert d B) c k (insert d B') := by
  induction h with
  | @stay B c hend =>
    rw [Finset.insert_comm]
    refine .stay (hend.imp_right fun hno hm => ?_)
    rcases Finset.mem_insert.mp hm with hm | hm
    · rw [← hm, hc.buddy_buddy] at hcd
      exact hcd (Finset.Subset.refl _)
    · exact hno hm
  | @merge B B' c k ho hbuddy _ ih =>
    refine .merge ho (Finset.mem_insert_of_mem hbuddy) ?_
    have hne : d ≠ c.buddy base := fun he => hd (he ▸ hbuddy)
    rw [Finset.erase_insert_of_ne hne]
    exact ih (Block.aligned_parent base c) (fun hm => hd (Finset.mem_of_mem_erase hm))
      fun hsub => hcd (hc.frames_subset_parent.trans hsub)

/-- A block that came into stock without a merge can come after the next block instead.  It may
then find that block to be its buddy. -/
theorem comm_of_stay (hstay : b.order = lastOrder ∨ b.buddy base ∉ B) (hb : b.Aligned base)
    (hbB : b ∉ B) (h : Settles base lastOrder (insert b B) c k B') (hc : c.Aligned base)
    (hcB : ∀ d ∈ B, ¬ c.frames ⊆ d.frames) :
    ∃ k₁ B₁ k₂, Settles base lastOrder B c k₁ B₁ ∧ Settles base lastOrder B₁ b k₂ B' ∧
      k₁ + k₂ = k := by
  generalize hS : insert b B = S at h
  induction h generalizing B with
  | @stay S c hend =>
    subst hS
    rw [Finset.insert_comm]
    refine ⟨0, insert c B, 0, .stay ?_, .stay ?_, rfl⟩
    · exact hend.imp_right fun hno hm => hno (Finset.mem_insert_of_mem hm)
    · rcases hend with hlast | hno
      · -- Both blocks are of the last order, or they are not buddies.
        by_cases hbc : b.buddy base = c
        · exact Or.inl ((congrArg Block.order hbc).trans hlast)
        · refine hstay.imp_right fun hno hm => ?_
          exact hno (Finset.mem_of_mem_insert_of_ne hm hbc)
      · refine hstay.imp_right fun hno' hm => ?_
        rcases Finset.mem_insert.mp hm with hbc | hm
        · rw [← hbc, hb.buddy_buddy] at hno
          exact hno (Finset.mem_insert_self b B)
        · exact hno' hm
  | @merge S B' c k ho hbuddy hrest ih =>
    subst hS
    by_cases hcb : c.buddy base = b
    · -- Whichever of two buddies comes second finds the other one.
      have hbc : b.buddy base = c := by rw [← hcb, hc.buddy_buddy]
      have hcnot : c ∉ B := fun hm => hcB c hm (Finset.Subset.refl _)
      refine ⟨0, insert c B, k + 1, .stay (Or.inr (hcb ▸ hbB)), .merge ?_ ?_ ?_, Nat.zero_add _⟩
      · rw [← hcb]
        exact ho
      · rw [hbc]
        exact Finset.mem_insert_self c B
      · rw [hbc, Finset.erase_insert hcnot, ← hcb, hc.parent_buddy]
        rw [hcb, Finset.erase_insert hbB] at hrest
        exact hrest
    · have hcB' : c.buddy base ∈ B := Finset.mem_of_mem_insert_of_ne hbuddy hcb
      obtain ⟨k₁, B₁, k₂, h₁, h₂, hk⟩ := ih
        (hstay.imp_right fun hno hm => hno (Finset.mem_of_mem_erase hm))
        (fun hm => hbB (Finset.mem_of_mem_erase hm)) (Block.aligned_parent base c)
        (fun d hd hsub => hcB d (Finset.mem_of_mem_erase hd) (hc.frames_subset_parent.trans hsub))
        (Finset.erase_insert_of_ne (Ne.symm hcb)).symm
      exact ⟨k₁ + 1, B₁, k₂, .merge ho hcB' h₁, h₂, by omega⟩

/-- **Two blocks that do not overlap settle in either order alike.**  The induction is on the
cascade of the first one; what it merges with stays in stock while the second one settles before
it. -/
theorem comm {k₁ k₂ : Nat} (h₁ : Settles base lastOrder B b k₁ B₁)
    (h₂ : Settles base lastOrder B₁ c k₂ B₂) (hb : b.Aligned base) (hc : c.Aligned base)
    (hbB : ∀ d ∈ B, ¬ b.frames ⊆ d.frames) (hcB : Disjoint c.frames (covered B))
    (hcb : Disjoint c.frames b.frames) :
    ∃ k₃ B₃ k₄, Settles base lastOrder B c k₃ B₃ ∧ Settles base lastOrder B₃ b k₄ B₂ ∧
      k₃ + k₄ = k₁ + k₂ := by
  induction h₁ with
  | @stay B b hend =>
    rw [Nat.zero_add]
    exact comm_of_stay hend hb (fun hm => hbB b hm (Finset.Subset.refl _)) h₂ hc
      (not_subset_of_outside hcB)
  | @merge B B₁ b k ho hbuddy _ ih =>
    have hcbuddy : Disjoint c.frames (b.buddy base).frames :=
      hcB.mono_right (frames_subset_covered hbuddy)
    have hcparent : Disjoint c.frames (b.parent base).frames := by
      rw [hb.frames_parent]
      exact Finset.disjoint_union_right.mpr ⟨hcb, hcbuddy⟩
    obtain ⟨k₃, B₃, k₄, h₃, h₄, hk⟩ := ih h₂ (Block.aligned_parent base b)
      (fun d hd hsub => hbB d (Finset.mem_of_mem_erase hd) (hb.frames_subset_parent.trans hsub))
      (hcB.mono_right (covered_mono (Finset.erase_subset _ B))) hcparent
    have hnot : b.buddy base ∉ B₃ :=
      h₃.not_mem hc (Finset.notMem_erase _ B) (Block.not_subset_of_disjoint hcbuddy)
    have hfirst := h₃.insert_block hc (Finset.notMem_erase (b.buddy base) B) (by
      rw [hb.buddy_buddy]
      exact Block.not_subset_of_disjoint hcb)
    rw [Finset.insert_erase hbuddy] at hfirst
    refine ⟨k₃, insert (b.buddy base) B₃, k₄ + 1, hfirst,
      .merge ho (Finset.mem_insert_self _ _) ?_, by omega⟩
    rw [Finset.erase_insert hnot]
    exact h₄

end Settles

/-- A cascade that ends where it has to settles the block. -/
theorem Ascends.settles {V : View} (h : Ascends V.base B₁ b k B' c) (hB₁ : B₁ = insert b B)
    (hs : V.Sound (insert b B)) (hb : b ∉ B) (hk : b.order + k ≤ V.lastOrder)
    (hend : c.order = V.lastOrder ∨ c.buddy V.base ∉ B') :
    Settles V.base V.lastOrder B b k B' := by
  induction h generalizing B with
  | stay B₁ b =>
    subst hB₁
    exact .stay (hend.imp_right fun hno hm => hno (Finset.mem_insert_of_mem hm))
  | @merge B₁ B' b c k hbuddy _ ih =>
    subst hB₁
    have hmem := Finset.mem_insert_self b B
    have ho : b.order < V.lastOrder := by omega
    have hbuddyB : b.buddy V.base ∈ B :=
      Finset.mem_of_mem_insert_of_ne hbuddy (hs.aligned b hmem).buddy_ne
    have hmerged := hs.merged hmem hbuddy ho
    have hcov := hs.covered_erase_buddies hmem hbuddy
    rw [Finset.erase_insert hb] at ih hmerged hcov
    refine .merge ho hbuddyB (ih rfl hmerged (not_mem_of_disjoint ?_) ?_ hend)
    · rw [hcov]
      exact Finset.disjoint_sdiff
    · rw [Block.order_parent]
      omega

/-! ### Lists of blocks -/

namespace Separate

theorem tail (h : Separate base B (b :: blocks)) : Separate base B blocks where
  aligned := fun c hc => h.aligned c (List.mem_cons_of_mem b hc)
  pairwise := (List.pairwise_cons.mp h.pairwise).2
  outside := fun c hc => h.outside c (List.mem_cons_of_mem b hc)

theorem perm (h : Separate base B blocks) (hperm : blocks.Perm blocks') :
    Separate base B blocks' where
  aligned := fun b hb => h.aligned b (hperm.mem_iff.mpr hb)
  pairwise := (hperm.pairwise_iff fun hd => Disjoint.symm hd).mp h.pairwise
  outside := fun b hb => h.outside b (hperm.mem_iff.mpr hb)

end Separate

namespace AllSettle

theorem unique {n' : Nat} {B'' : Finset Block} (h : AllSettle base lastOrder B blocks n B')
    (h' : AllSettle base lastOrder B blocks n' B'') : n = n' ∧ B' = B'' := by
  induction h generalizing n' B'' with
  | nil =>
    cases h'
    exact ⟨rfl, rfl⟩
  | cons _ hb ih =>
    cases h' with
    | cons hrest hb' =>
      obtain ⟨rfl, rfl⟩ := ih hrest
      obtain ⟨rfl, rfl⟩ := hb.unique hb'
      exact ⟨rfl, rfl⟩

theorem le (h : AllSettle base lastOrder B blocks n B') :
    n ≤ (blocks.map fun b => lastOrder - b.order).sum := by
  induction h with
  | nil => exact Nat.zero_le _
  | cons _ hb ih =>
    have hle := hb.le
    rw [List.map_cons, List.sum_cons]
    omega

theorem disjoint (h : AllSettle base lastOrder B blocks n B')
    (haligned : ∀ b ∈ blocks, b.Aligned base) (hB : Disjoint c.frames (covered B))
    (hc : ∀ b ∈ blocks, Disjoint c.frames b.frames) :
    Disjoint c.frames (covered B') := by
  induction h with
  | nil => exact hB
  | cons _ hb ih =>
    obtain ⟨hfirst, hrest⟩ := List.forall_mem_cons.mp hc
    obtain ⟨ha, harest⟩ := List.forall_mem_cons.mp haligned
    exact hb.disjoint ha (ih harest hrest) hfirst

/-- **Blocks that do not overlap settle in any order alike.** -/
theorem perm (hperm : blocks.Perm blocks') (h : AllSettle base lastOrder B blocks n B')
    (hsep : Separate base B blocks) : AllSettle base lastOrder B blocks' n B' := by
  induction hperm generalizing n B' with
  | nil => exact h
  | cons b _ ih =>
    cases h with
    | cons hrest hb => exact .cons (ih hrest hsep.tail) hb
  | swap b c blocks =>
    cases h with
    | @cons _ _ _ _ k₂ _ hrest hc =>
      cases hrest with
      | @cons B₀ _ _ _ k₁ n hrest hb =>
        obtain ⟨hcothers, hpair⟩ := List.pairwise_cons.mp hsep.pairwise
        obtain ⟨hbothers, _⟩ := List.pairwise_cons.mp hpair
        have hbmem : b ∈ c :: b :: blocks := List.mem_cons_of_mem c List.mem_cons_self
        have haligned := hsep.tail.tail.aligned
        have hbout := hrest.disjoint haligned (hsep.outside b hbmem) hbothers
        have hcout := hrest.disjoint haligned (hsep.outside c List.mem_cons_self)
          fun d hd => hcothers d (List.mem_cons_of_mem b hd)
        obtain ⟨k₃, B₃, k₄, h₃, h₄, hk⟩ := hb.comm hc (hsep.aligned b hbmem)
          (hsep.aligned c List.mem_cons_self) (not_subset_of_outside hbout) hcout
          (hcothers b List.mem_cons_self)
        have hsum : n + k₁ + k₂ = n + k₃ + k₄ := by omega
        rw [hsum]
        exact .cons (.cons hrest h₃) h₄
  | trans hfirst _ ih₁ ih₂ => exact ih₂ (ih₁ h hsep) (hsep.perm hfirst)

end AllSettle

/-! ### Allocators with one stock -/

theorem Leads.next_eq {next next' : Nat → Option Nat} :
    ∀ {xs : List Nat} {start start' : Option Nat},
    Leads next start xs none → Leads next' start' xs none → ∀ x ∈ xs, next x = next' x := by
  intro xs
  induction xs with
  | nil => exact fun _ _ x hx => absurd hx List.not_mem_nil
  | cons y ys ih =>
    intro start start' h h' x hx
    rcases List.mem_cons.mp hx with rfl | hx
    · exact h.2.head?_eq.symm.trans h'.2.head?_eq
    · exact ih h.2 h'.2 x hx

theorem FrameTable.eq_of_page? {t t' : FrameTable} (hbase : t.base = t'.base)
    (hcount : t.frameCount = t'.frameCount) (hsize : t.pageSize = t'.pageSize)
    (hpage : ∀ f, t.page? f = t'.page? f) : t = t' := by
  obtain ⟨base, pages, pageSize, _⟩ := t
  obtain ⟨base', pages', pageSize', _⟩ := t'
  obtain rfl : base = base' := hbase
  obtain rfl : pageSize = pageSize' := hsize
  have hpages : pages = pages' := by
    refine Array.ext hcount fun i hi hi' => ?_
    have h := hpage (base + i)
    rw [page?, page?, if_pos (Nat.le_add_right _ _), if_pos (Nat.le_add_right _ _)] at h
    simp only [Nat.add_sub_cancel_left, Array.getElem?_eq_getElem hi,
      Array.getElem?_eq_getElem hi', Option.some.injEq] at h
    exact h
  subst hpages
  rfl

/-- A registry is known from its survey and its links. -/
theorem Registry.eq_of_survey {r r' : Registry} (hsurvey : r.survey = r'.survey)
    (hlink : ∀ f, r.link? f = r'.link? f) : r = r' := by
  have hpage : ∀ f, r.table.page? f = r'.table.page? f := by
    intro f
    have hpfn : (r.table.page? f).map Page.pfn = (r'.table.page? f).map Page.pfn :=
      congrFun (congrArg Survey.pfns hsurvey) f
    have hfree : f ∈ r.freeFrames ↔ f ∈ r'.freeFrames := by
      rw [show r.freeFrames = r'.freeFrames from congrArg Survey.free hsurvey]
    have hnext := hlink f
    rw [mem_freeFrames, mem_freeFrames] at hfree
    rw [link?, link?] at hnext
    generalize r.table.page? f = page at hpfn hfree hnext ⊢
    generalize r'.table.page? f = page' at hpfn hfree hnext ⊢
    rcases page with _ | ⟨pfn, state, next⟩ <;> rcases page' with _ | ⟨pfn', state', next'⟩
    · rfl
    · cases hpfn
    · cases hpfn
    · obtain rfl : pfn = pfn' := Option.some.inj hpfn
      obtain rfl : next = next' := hnext
      have hstate : state = state' := by
        cases state <;> cases state' <;> simp at hfree ⊢
      rw [hstate]
  have htable : r.table = r'.table :=
    FrameTable.eq_of_page? (congrArg Survey.base hsurvey) (congrArg Survey.frameCount hsurvey)
      (congrArg Survey.pageSize hsurvey) hpage
  have hhidden : r.hidden = r'.hidden := congrArg Survey.hidden hsurvey
  obtain ⟨table, hidden⟩ := r
  obtain ⟨table', hidden'⟩ := r'
  obtain rfl : table = table' := htable
  obtain rfl : hidden = hidden' := hhidden
  rfl

namespace Allocator

variable {a a₀ a' a₁ a₂ : Allocator} {log : List Exchange}

/-- **An allocator is known from its stock and its view.** -/
theorem Keeps.ext (h : a.Keeps ∅ B) (h' : a'.Keeps ∅ B) (hview : a.view = a'.view) : a = a' := by
  have hspells : ∀ o, ∃ xs, (a.threaded o).Spells xs ∧ (a'.threaded o).Spells xs ∧
      ∀ p, p ∈ xs ↔ (⟨p, o⟩ : Block) ∈ B := by
    intro o
    obtain ⟨xs, hxs, hmem⟩ := h.spells o
    obtain ⟨ys, hys, hmem'⟩ := h'.spells o
    obtain rfl : xs = ys := hxs.ascending.eq_of_mem_iff hys.ascending fun p => by
      rw [hmem, hmem']
    exact ⟨xs, hxs, hys, hmem⟩
  have hlist : ∀ o, a.list o = a'.list o := by
    intro o
    obtain ⟨xs, hxs, hys, _⟩ := hspells o
    have hhead : (a.list o).head = (a'.list o).head :=
      hxs.leads.head?_eq.symm.trans hys.leads.head?_eq
    have hlen : (a.list o).len = (a'.list o).len := hxs.len.trans hys.len.symm
    rcases hl : a.list o with ⟨head, len⟩
    rcases hl' : a'.list o with ⟨head', len'⟩
    rw [hl, hl'] at hhead hlen
    obtain rfl : head = head' := hhead
    obtain rfl : len = len' := hlen
    rfl
  have hlink : ∀ f, a.registry.link? f = a'.registry.link? f := by
    intro f
    by_cases hhead : ∃ o, (⟨f, o⟩ : Block) ∈ B
    · obtain ⟨o, ho⟩ := hhead
      obtain ⟨xs, hxs, hys, hmem⟩ := hspells o
      exact hxs.leads.next_eq hys.leads f ((hmem f).mpr ho)
    · have hno : ∀ o, (⟨f, o⟩ : Block) ∉ B := fun o ho => hhead ⟨o, ho⟩
      rw [h.idle f (Set.notMem_empty f) hno, h'.idle f (Set.notMem_empty f) hno]
  have hregistry : a.registry = a'.registry :=
    Registry.eq_of_survey (congrArg View.toSurvey hview) hlink
  have hlists : a.lists = a'.lists := by
    refine Vector.ext fun o ho => ?_
    have he := hlist o
    rw [list, list, Vector.getElem?_eq_getElem ho, Vector.getElem?_eq_getElem ho] at he
    exact he
  have htotal : a.totalFree = a'.totalFree := h.total.trans h'.total.symm
  have hlast : a.lastOrder = a'.lastOrder := congrArg View.lastOrder hview
  have hcounters : a.counters = a'.counters := congrArg View.counters hview
  obtain ⟨registry, lists, lastOrder, _, totalFree, counters⟩ := a
  obtain ⟨registry', lists', lastOrder', _, totalFree', counters'⟩ := a'
  obtain rfl : registry = registry' := hregistry
  obtain rfl : lists = lists' := hlists
  obtain rfl : lastOrder = lastOrder' := hlast
  obtain rfl : totalFree = totalFree' := htotal
  obtain rfl : counters = counters' := hcounters
  rfl

/-! ### Histories of blocks given back -/

/-- The blocks were given back, the last one of the list first, and all were taken. -/
structure GivenBack (a : Allocator) (blocks : List Block) (log : List Exchange) (a' : Allocator) :
    Prop where
  history : History a log a'
  answered : Answered log
  calls : log.map Exchange.call = blocks.map Call.free

theorem Freed.settles (hB : a.Complete B) (hf : Freed ∅ a B b k B' c a') :
    Settles a.base a.lastOrder B b k B' := by
  have htakes := hf.takes
  have hdisj : Disjoint b.frames (BuddySystem.covered B) := Finset.disjoint_left.mpr
    fun f hfb hc => (htakes.allocated f hfb).2 (hB.keeps.sound.free hc)
  have hcont : a.view.Continues { a.view with free := a.view.free ∪ b.frames } := rfl
  have hsound : ({ a.view with free := a.view.free ∪ b.frames } : View).Sound (insert b B) :=
    (hB.keeps.sound.congr hcont (hB.keeps.sound.free.trans Finset.subset_union_left)).add
      htakes.order_le htakes.aligned Finset.subset_union_right hdisj
  have hk : b.order + k ≤ a.lastOrder := by
    have ho : b.order ≤ a.lastOrder := htakes.order_le
    have hle := hf.le
    omega
  exact hf.ascends.settles rfl hsound (not_mem_of_disjoint hdisj) hk (hf.complete hB.sighted)

namespace GivenBack

theorem eq_of_nil (h : GivenBack a [] log a') : a' = a := by
  obtain ⟨hhistory, _, hcalls⟩ := h
  cases hhistory with
  | start => rfl
  | call v call _ => cases hcalls

theorem cons (h : GivenBack a blocks log a₁) (v : Verbosity) {reply : Reply}
    (hreply : (perform (.free b) v a₁).value = .ok reply) :
    GivenBack a (b :: blocks) (⟨a₁, .free b, (perform (.free b) v a₁).value⟩ :: log)
      (perform (.free b) v a₁).state where
  history := .call v (.free b) h.history
  answered := List.forall_mem_cons.mpr ⟨⟨reply, hreply⟩, h.answered⟩
  calls := congrArg (Call.free b :: ·) h.calls

theorem exists_of_cons (h : GivenBack a (b :: blocks) log a') :
    ∃ log₁ a₁ v reply, GivenBack a blocks log₁ a₁ ∧
      (perform (.free b) v a₁).value = .ok reply ∧ (perform (.free b) v a₁).state = a' := by
  obtain ⟨hhistory, hanswered, hcalls⟩ := h
  cases hhistory with
  | start => cases hcalls
  | @call log₁ a₁ v call hhistory =>
    obtain ⟨hlast, hearlier⟩ := List.cons.inj hcalls
    obtain rfl : call = .free b := hlast
    obtain ⟨⟨reply, hreply⟩, hrest⟩ := List.forall_mem_cons.mp hanswered
    exact ⟨log₁, a₁, v, reply, ⟨hhistory, hrest, hearlier⟩, hreply, rfl⟩

/-- **Blocks that are given back settle in the stock**, and the view tells how many they were. -/
theorem allSettle (hB : a.Complete B) (h : GivenBack a blocks log a') :
    ∃ n B', AllSettle a.base a.lastOrder B blocks n B' ∧ a'.Complete B' ∧
      a'.view = { a.view with
        free := a.view.free ∪ covered blocks.toFinset
        counters := { a.counters with
          frees := a.counters.frees + blocks.length
          merges := a.counters.merges + n } } := by
  induction blocks generalizing log a' with
  | nil =>
    obtain rfl := h.eq_of_nil
    refine ⟨0, B, .nil, hB, ?_⟩
    rw [List.toFinset_nil, covered, Finset.biUnion_empty, Finset.union_empty]
    rfl
  | cons b blocks ih =>
    obtain ⟨log₁, a₁, v, reply, h₁, hreply, rfl⟩ := h.exists_of_cons
    obtain ⟨n, B₁, hall, hB₁, hv₁⟩ := ih h₁
    have hp := performed_of_answer hB₁.keeps hreply
    generalize (perform (.free b) v a₁).state = a' at hp ⊢
    cases hp with
    | looked hq => exact hq.elim
    | @freed _ c k B' _ hf =>
      have hbase : a₁.base = a.base := congrArg (fun V => V.base) hv₁
      have hlast : a₁.lastOrder = a.lastOrder := congrArg View.lastOrder hv₁
      have hcounters : a₁.counters = _ := congrArg View.counters hv₁
      have hsettles := hf.settles hB₁
      rw [hbase, hlast] at hsettles
      refine ⟨n + k, B', .cons hall hsettles, hB₁.of_keeps hf.restocked hf.keeps, ?_⟩
      rw [hf.view, hv₁, hcounters, List.toFinset_cons, covered_insert, Finset.union_assoc,
        Finset.union_comm b.frames, Nat.add_assoc, Nat.add_assoc]
      rfl

/-- **Blocks that do not overlap can all be given back**, unless a counter might become full. -/
theorem exists_of_takes (hB : a.Complete B) (hdisj : blocks.Pairwise fun b c =>
    Disjoint b.frames c.frames) (htakes : ∀ b ∈ blocks, a.view.Takes b)
    (hfrees : a.counters.frees + blocks.length < Word.limit)
    (hmerges : a.counters.merges + (blocks.map fun b => a.lastOrder - b.order).sum < Word.limit) :
    ∃ log a', GivenBack a blocks log a' := by
  induction blocks with
  | nil => exact ⟨[], a, .start, fun e he => absurd he List.not_mem_nil, rfl⟩
  | cons b blocks ih =>
    obtain ⟨hb, hrest⟩ := List.forall_mem_cons.mp htakes
    obtain ⟨hothers, hpair⟩ := List.pairwise_cons.mp hdisj
    rw [List.length_cons] at hfrees
    rw [List.map_cons, List.sum_cons] at hmerges
    obtain ⟨log₁, a₁, h₁⟩ := ih hpair hrest (by omega) (by omega)
    obtain ⟨n, B₁, hall, hB₁, hv₁⟩ := h₁.allSettle hB
    have hcounters : a₁.counters = _ := congrArg View.counters hv₁
    have hlast : a₁.lastOrder = a.lastOrder := congrArg View.lastOrder hv₁
    have hle := hall.le
    have hb₁ : a₁.view.Takes b := by
      refine hb.continued (by rw [hv₁]; rfl) fun f hf hm => ?_
      rw [hv₁] at hm
      rcases Finset.mem_union.mp hm with hm | hm
      · exact (hb.allocated f hf).2 hm
      · obtain ⟨c, hc, hfc⟩ := mem_covered.mp hm
        exact Finset.disjoint_left.mp (hothers c (List.mem_toFinset.mp hc)) hf hfc
    obtain ⟨reply, hreply⟩ := free_answers hB₁.keeps hB₁.sighted hb₁
      (by rw [hcounters]; dsimp only; omega) (by rw [hcounters, hlast]; dsimp only; omega) none
    exact ⟨_, _, h₁.cons none hreply⟩

end GivenBack

/-- **In whatever order blocks are given back, the allocator is the same in the end**: the lists,
the descriptors, the count of free pages and the counters.  All blocks are taken, unless a counter
might become full. -/
theorem eq_of_given_back (hfresh : a₀.Fresh) (h : History a₀ log a) (hanswered : Answered log)
    (hdisj : blocks.Pairwise fun b c => Disjoint b.frames c.frames)
    (htakes : ∀ b ∈ blocks, a.view.Takes b) (hperm : blocks.Perm blocks') :
    (∀ log₁ a₁ log₂ a₂, GivenBack a blocks log₁ a₁ → GivenBack a blocks' log₂ a₂ → a₁ = a₂) ∧
      (a.counters.frees + blocks.length < Word.limit →
        a.counters.merges + (blocks.map fun b => a.lastOrder - b.order).sum < Word.limit →
        ∃ a', (∃ log₁, GivenBack a blocks log₁ a') ∧ ∃ log₂, GivenBack a blocks' log₂ a') := by
  obtain ⟨B, hB⟩ := complete_of_history hfresh h fun e he _ _ _ => hanswered e he
  have hsep : Separate a.base B blocks := by
    refine ⟨fun b hb => (htakes b hb).aligned, hdisj, fun b hb => ?_⟩
    exact Finset.disjoint_left.mpr fun f hf hc =>
      ((htakes b hb).allocated f hf).2 (hB.keeps.sound.free hc)
  have hsame : ∀ log₁ a₁ log₂ a₂, GivenBack a blocks log₁ a₁ → GivenBack a blocks' log₂ a₂ →
      a₁ = a₂ := by
    intro log₁ a₁ log₂ a₂ h₁ h₂
    obtain ⟨n, B₁, hall₁, hB₁, hv₁⟩ := h₁.allSettle hB
    obtain ⟨n', B₂, hall₂, hB₂, hv₂⟩ := h₂.allSettle hB
    obtain ⟨rfl, rfl⟩ := (hall₁.perm hperm hsep).unique hall₂
    refine hB₁.keeps.ext hB₂.keeps ?_
    rw [hv₁, hv₂, List.toFinset_eq_of_perm _ _ hperm, hperm.length_eq]
  refine ⟨hsame, fun hfrees hmerges => ?_⟩
  obtain ⟨log₁, a₁, h₁⟩ := GivenBack.exists_of_takes hB hdisj htakes hfrees hmerges
  rw [hperm.length_eq] at hfrees
  rw [(hperm.map _).sum_eq] at hmerges
  obtain ⟨log₂, a₂, h₂⟩ := GivenBack.exists_of_takes hB
    (hsep.perm hperm).pairwise (fun b hb => htakes b (hperm.mem_iff.mpr hb)) hfrees hmerges
  exact ⟨a₁, ⟨log₁, h₁⟩, log₂, hsame log₁ a₁ log₂ a₂ h₁ h₂ ▸ h₂⟩

/-- Three pages whose cascades meet each other and a free page, next to two free buddies that were
handed over apart and stay so. -/
theorem eq_of_three_given_back :
    ∃ a₀ log a log₁ a₁ log₂ a₂, a₀.Fresh ∧ History a₀ log a ∧ Answered log ∧
      a.heads 0 = [6, 7, 8] ∧
      ([⟨3, 0⟩, ⟨4, 0⟩, ⟨5, 0⟩] : List Block).Pairwise
        (fun b c => Disjoint b.frames c.frames) ∧
      (∀ b ∈ ([⟨3, 0⟩, ⟨4, 0⟩, ⟨5, 0⟩] : List Block), a.view.Takes b) ∧
      ([⟨3, 0⟩, ⟨4, 0⟩, ⟨5, 0⟩] : List Block).Perm [⟨5, 0⟩, ⟨3, 0⟩, ⟨4, 0⟩] ∧
      GivenBack a [⟨3, 0⟩, ⟨4, 0⟩, ⟨5, 0⟩] log₁ a₁ ∧
      GivenBack a [⟨5, 0⟩, ⟨3, 0⟩, ⟨4, 0⟩] log₂ a₂ ∧
      a₁.heads 0 = [7, 8] ∧ a₁.heads 2 = [3] ∧ a₁.counters.merges = 3 ∧ a₁ = a₂ := by
  have hrun : ∃ a₀ log a log₁ a₁ log₂ a₂, Fresh a₀ ∧ History a₀ log a ∧ Answered log ∧
      a.heads 0 = [6, 7, 8] ∧ History a log₁ a₁ ∧ Answered log₁ ∧
      log₁.map Exchange.call = [.free ⟨3, 0⟩, .free ⟨4, 0⟩, .free ⟨5, 0⟩] ∧
      History a log₂ a₂ ∧ Answered log₂ ∧
      log₂.map Exchange.call = [.free ⟨5, 0⟩, .free ⟨3, 0⟩, .free ⟨4, 0⟩] ∧
      (∀ b ∈ ([⟨3, 0⟩, ⟨4, 0⟩, ⟨5, 0⟩] : List Block), b.order ≤ a.view.lastOrder ∧
        b.Aligned a.view.base ∧ ∀ f ∈ b.frames, (f ∈ a.view.run ∧ a.view.hidden f = false) ∧
        f ∉ a.view.free) ∧
      a₁.heads 0 = [7, 8] ∧ a₁.heads 2 = [3] ∧ a₁.counters.merges = 3 := by
    refine ⟨_, _, _, _, _, _, _, ⟨4096, 3, 8, 2, _, rfl, rfl⟩,
      .call none (.allocate 0 Hints.empty) (.call none (.allocate 0 Hints.empty)
        (.call none (.allocate 0 Hints.empty) (.call none (.insert 8 1) (.call none (.insert 7 1)
          (.call none (.insert 6 1) (.call none (.insert 5 1) (.call none (.insert 4 1)
            (.call none (.insert 3 1) .start)))))))), ?_, ?_,
      .call none (.free ⟨3, 0⟩) (.call none (.free ⟨4, 0⟩) (.call none (.free ⟨5, 0⟩) .start)),
      ?_, rfl,
      .call none (.free ⟨5, 0⟩) (.call none (.free ⟨3, 0⟩) (.call none (.free ⟨4, 0⟩) .start)),
      ?_, rfl, ?_⟩ <;> decide +kernel
  obtain ⟨a₀, log, a, log₁, a₁, log₂, a₂, hfresh, h, hanswered, hheads, h₁, hanswered₁, hcalls₁,
    h₂, hanswered₂, hcalls₂, htakes, hend⟩ := hrun
  have hdisj : ([⟨3, 0⟩, ⟨4, 0⟩, ⟨5, 0⟩] : List Block).Pairwise
      fun b c => Disjoint b.frames c.frames := by decide
  have hperm : ([⟨3, 0⟩, ⟨4, 0⟩, ⟨5, 0⟩] : List Block).Perm [⟨5, 0⟩, ⟨3, 0⟩, ⟨4, 0⟩] := by decide
  have htakes' : ∀ b ∈ ([⟨3, 0⟩, ⟨4, 0⟩, ⟨5, 0⟩] : List Block), a.view.Takes b := fun b hb =>
    ⟨(htakes b hb).1, (htakes b hb).2.1, (htakes b hb).2.2⟩
  have hback₁ : GivenBack a [⟨3, 0⟩, ⟨4, 0⟩, ⟨5, 0⟩] log₁ a₁ := ⟨h₁, hanswered₁, hcalls₁⟩
  have hback₂ : GivenBack a [⟨5, 0⟩, ⟨3, 0⟩, ⟨4, 0⟩] log₂ a₂ := ⟨h₂, hanswered₂, hcalls₂⟩
  exact ⟨a₀, log, a, log₁, a₁, log₂, a₂, hfresh, h, hanswered, hheads, hdisj, htakes', hperm,
    hback₁, hback₂, hend.1, hend.2.1, hend.2.2,
    (eq_of_given_back hfresh h hanswered hdisj htakes' hperm).1 log₁ a₁ log₂ a₂ hback₁ hback₂⟩

end Allocator

end BuddySystem
