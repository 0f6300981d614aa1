import BuddySystem.Allocator.Run
import BuddySystem.Proofs.Allocation
import BuddySystem.Proofs.Tiling

/-!
# Taking over and giving up runs

A run that is taken over is cut into maximal blocks (`Inserted`), and a run is given
up by taking out whole blocks that tile it (`Withdrawn`).  `insertRun_ends` and
`removeRun_ends` say what becomes of the stock; both follow by induction on the
budget of a loop from what one turn of the loop does (`carve_ends`, `withdraw_ends`).

A run can be taken over when its frames can all be reached and none is free.  In
that case a fault comes only from the end of a block that would be too large to be
a number.  `Aborted` says what a fault leaves behind.  Giving up a run stops at the
first frame that no block in stock starts at, or whose block is too long, and leaves the
blocks before it withdrawn.
-/

namespace BuddySystem.Allocator

variable {stale : Set Nat} {a a' a₁ : Allocator} {B B' : Finset Block} {b : Block}
  {blocks : List Block} {v : Verbosity} {base stop start count mid pfn : Nat}

/-! ### Taking over -/

/-- The run is cut into maximal blocks, which come into the stock `B`. -/
structure Inserted (stale : Set Nat) (a : Allocator) (B : Finset Block) (start count : Nat)
    (blocks : List Block) (a' : Allocator) : Prop where
  new : ∀ f ∈ Finset.Ico start (start + count), a.view.Reaches f ∧ f ∉ a.view.free
  tiles : Tiles start (start + count) blocks
  maximal : ∀ b ∈ blocks,
    b.IsMaximal a.base a.lastOrder (Finset.Ico start (start + count))
  keeps : a'.Keeps stale (B ∪ blocks.toFinset)
  view : a'.view =
    { a.view with free := a.view.free ∪ Finset.Ico start (start + count) }

/-- What is left of a run that is not taken over, in an allocator whose stock is in sight. -/
inductive Aborted (stale : Set Nat) (a : Allocator) (B : Finset Block) (start count : Nat) :
    Allocator → Prop
  /-- A frame that cannot come in was met before anything was written. -/
  | rejected {f : Nat} : f ∈ Finset.Ico start (start + count) →
      ¬ (a.view.Reaches f ∧ f ∉ a.view.free) → Aborted stale a B start count a
  /-- The frames before one that is out of reach have been marked as free. -/
  | gap {mid : Nat} {a' : Allocator} : mid ∈ Finset.Ico start (start + count) →
      ¬ a.view.Reaches mid → (∀ f ∈ Finset.Ico start mid, f ∉ a.view.free) →
      Marks .free start mid a a' → a'.Keeps stale B → Aborted stale a B start count a'
  /-- The whole run has been marked as free, but the block to be cut off at `mid` might end beyond
  all numbers. -/
  | cut {mid : Nat} {blocks : List Block} {a' : Allocator} :
      (∀ f ∈ Finset.Ico start (start + count), a.view.Reaches f ∧ f ∉ a.view.free) →
      mid < start + count → Word.limit ≤ mid + 2 ^ a.lastOrder → Tiles start mid blocks →
      a'.Keeps stale (B ∪ blocks.toFinset) →
      a'.view = { a.view with free := a.view.free ∪ Finset.Ico start (start + count) } →
      Aborted stale a B start count a'

theorem Aborted.limit_lt (h : Aborted stale a B start count a')
    (hall : ∀ f ∈ Finset.Ico start (start + count), a.view.Reaches f ∧ f ∉ a.view.free) :
    Word.limit < start + count + 2 ^ a.lastOrder := by
  cases h with
  | rejected hf hno => exact absurd (hall _ hf) hno
  | gap hmid hreach _ _ _ => exact absurd (hall _ hmid).1 hreach
  | cut _ hmid hlimit _ _ _ => omega

theorem fittingOrder_cases (hbase : base ≤ pfn) (hlt : pfn < stop) : ∀ n,
    match fittingOrder base stop pfn n with
    | .ok o => Carved base n stop ⟨pfn, o⟩ ∧ pfn + 2 ^ o ≤ stop
    | .error _ => Word.limit ≤ pfn + 2 ^ n := by
  intro n
  induction n with
  | zero =>
    refine ⟨⟨Nat.le_refl 0, ⟨hbase, ?_⟩, fun o h0 h1 => absurd h0 (Nat.not_lt.mpr h1)⟩, hlt⟩
    exact one_dvd _
  | succ n ih =>
    have hpow : 2 ^ n ≤ 2 ^ (n + 1) := Nat.pow_le_pow_right (by omega) (Nat.le_succ n)
    rw [fittingOrder]
    by_cases hlimit : pfn + 2 ^ (n + 1) < Word.limit
    · have hadd : Word.add pfn (⟨pfn, n + 1⟩ : Block).size = .ok (pfn + 2 ^ (n + 1)) :=
        Word.add_eq_ok_iff.mpr ⟨rfl, hlimit⟩
      rw [hadd]
      change match if decide (pfn + 2 ^ (n + 1) ≤ stop) && (⟨pfn, n + 1⟩ : Block).isAligned base
        then Except.ok (n + 1) else fittingOrder base stop pfn n with
        | .ok o => Carved base (n + 1) stop ⟨pfn, o⟩ ∧ pfn + 2 ^ o ≤ stop
        | .error _ => Word.limit ≤ pfn + 2 ^ (n + 1)
      by_cases hfits : pfn + 2 ^ (n + 1) ≤ stop ∧ (⟨pfn, n + 1⟩ : Block).Aligned base
      · rw [if_pos (by rw [Bool.and_eq_true, decide_eq_true_eq, Block.isAligned_iff]; exact hfits)]
        exact ⟨⟨Nat.le_refl _, hfits.2, fun o h0 h1 => absurd h0 (Nat.not_lt.mpr h1)⟩, hfits.1⟩
      · rw [if_neg (by rw [Bool.and_eq_true, decide_eq_true_eq, Block.isAligned_iff]; exact hfits)]
        split at ih
        · obtain ⟨hcarved, hend⟩ := ih
          refine ⟨⟨Nat.le_succ_of_le hcarved.order_le, hcarved.aligned, fun o h0 h1 ha => ?_⟩, hend⟩
          rcases Nat.lt_or_eq_of_le h1 with h1 | rfl
          · exact hcarved.largest o h0 (Nat.le_of_lt_succ h1) ha
          · by_contra hge
            exact hfits ⟨Nat.le_of_not_lt hge, ha⟩
        · exact ih.trans (Nat.add_le_add_left hpow pfn)
    · have hadd : Word.add pfn (⟨pfn, n + 1⟩ : Block).size = .error (.overflow .addition) :=
        Word.add_of_limit_le (Nat.le_of_not_lt hlimit)
      rw [hadd]
      exact Nat.le_of_not_lt hlimit

theorem disjoint_rest (h : Disjoint (Finset.Ico b.pfn stop) (covered B)) :
    Disjoint (Finset.Ico (b.pfn + b.size) stop) (covered (insert b B)) := by
  have hrest : Finset.Ico (b.pfn + b.size) stop ⊆ Finset.Ico b.pfn stop :=
    Finset.Ico_subset_Ico_left (Nat.le_add_right _ _)
  rw [covered_insert, Finset.disjoint_union_right]
  refine ⟨?_, h.mono_left hrest⟩
  rw [Finset.disjoint_left]
  intro f hf hf'
  exact Nat.not_lt.mpr (Finset.mem_Ico.mp hf).1 (Block.mem_frames.mp hf').2

/-- **The run from `pfn` on is cut up**, one block a turn.  The blocks that came into stock before a
fault stay. -/
theorem carve_ends {stop : Nat} : ∀ (budget : Nat) {pfn : Nat} {a : Allocator} {B : Finset Block},
    a.Keeps stale B → a.base ≤ pfn → pfn ≤ stop → stop ≤ pfn + budget →
    Finset.Ico pfn stop ⊆ a.view.free → Disjoint (Finset.Ico pfn stop) (covered B) →
    (carve stop budget pfn).Ends v a
      (fun blocks a' => Tiles pfn stop blocks ∧
        (∀ b ∈ blocks, Carved a.base a.lastOrder stop b) ∧
        a'.Keeps stale (B ∪ blocks.toFinset) ∧ a'.view = a.view)
      fun a' => ∃ B', B ⊆ B' ∧ covered B' ⊆ Finset.Ico pfn stop ∪ covered B ∧
        a'.Keeps stale B' ∧ a'.view = a.view ∧
        (a.view.Sighted B → (∀ f ∈ Finset.Ico pfn stop, a.view.hidden f = false) →
          ∃ mid < stop, ∃ blocks, Word.limit ≤ mid + 2 ^ a.lastOrder ∧ Tiles pfn mid blocks ∧
            a'.Keeps stale (B ∪ blocks.toFinset)) := by
  intro budget
  induction budget with
  | zero =>
    intro pfn a B h _ hle hbudget _ _
    have he : pfn = stop := Nat.le_antisymm hle hbudget
    exact ⟨he, by simp, by rw [List.toFinset_nil, Finset.union_empty]; exact h, rfl⟩
  | succ budget ih =>
    intro pfn a B h hbase hle hbudget hfree hdisj
    have hnone : a.Keeps stale (B ∪ ([] : List Block).toFinset) := by
      rw [List.toFinset_nil, Finset.union_empty]
      exact h
    rw [carve]
    by_cases hlt : pfn < stop
    swap
    · have he : pfn = stop := Nat.le_antisymm hle (Nat.le_of_not_lt hlt)
      rw [if_neg hlt]
      exact ⟨he, by simp, hnone, rfl⟩
    have hcases := fittingOrder_cases hbase hlt a.lastOrder
    rw [if_pos hlt, Op.ends_bind, Op.ends_compute]
    refine ⟨fun order horder => ?_, fun fault hfault => ?_⟩
    swap
    · rw [hfault] at hcases
      exact ⟨B, Finset.Subset.refl B, Finset.subset_union_right, h, rfl, fun _ _ =>
        ⟨pfn, hlt, [], hcases, rfl, hnone⟩⟩
    rw [horder] at hcases
    obtain ⟨hcarved, hend⟩ := hcases
    have hpos := Nat.two_pow_pos order
    have hin : (⟨pfn, order⟩ : Block).frames ⊆ Finset.Ico pfn stop :=
      Finset.Ico_subset_Ico_right hend
    have hsound : a.view.Sound (insert ⟨pfn, order⟩ B) :=
      h.sound.add hcarved.order_le hcarved.aligned (hin.trans hfree) (hdisj.mono_left hin)
    refine (enlist_ends h hsound (not_mem_of_disjoint (hdisj.mono_left hin))).bind ?_ ?_
    · rintro a' ⟨he, hblind⟩
      refine ⟨B, Finset.Subset.refl B, Finset.subset_union_right, he ▸ h, by rw [he],
        fun hs hvis => absurd ?_ hblind⟩
      exact sighted_insert.mpr ⟨fun f hf => hvis f (hin hf), hs⟩
    rintro _ a₁ ⟨h₁, hv₁⟩
    have hbase₁ : a₁.base = a.base := congrArg (fun V => V.base) hv₁
    have hlast₁ : a₁.lastOrder = a.lastOrder := congrArg View.lastOrder hv₁
    have hrest : Finset.Ico (pfn + (⟨pfn, order⟩ : Block).size) stop ⊆ Finset.Ico pfn stop :=
      Finset.Ico_subset_Ico_left (Nat.le_add_right _ _)
    have hdisj₁ : Disjoint (Finset.Ico (pfn + (⟨pfn, order⟩ : Block).size) stop)
        (covered (insert ⟨pfn, order⟩ B)) :=
      disjoint_rest (b := ⟨pfn, order⟩) hdisj
    have hB : ∀ blocks : List Block, B ∪ (⟨pfn, order⟩ :: blocks : List Block).toFinset =
        insert ⟨pfn, order⟩ B ∪ blocks.toFinset := by
      intro blocks
      rw [List.toFinset_cons, Finset.union_insert, Finset.insert_union]
    refine (ih h₁ (hbase₁ ▸ hbase.trans (Nat.le_add_right _ _)) hend (by omega)
      (hv₁ ▸ hrest.trans hfree) hdisj₁).bind ?_ ?_
    · rintro a' ⟨B', hsub, hcov, h', hv', hcause⟩
      rw [hv₁] at hv'
      rw [covered_insert] at hcov
      have hcov' : covered B' ⊆ Finset.Ico pfn stop ∪ covered B :=
        hcov.trans (Finset.union_subset (hrest.trans Finset.subset_union_left)
          (Finset.union_subset_union_left hin))
      refine ⟨B', (Finset.subset_insert _ B).trans hsub, hcov', h', hv', fun hs hvis => ?_⟩
      rw [hlast₁, hv₁] at hcause
      obtain ⟨mid, hmid, blocks, hlimit, htiles, hlisted⟩ :=
        hcause (sighted_insert.mpr ⟨fun f hf => hvis f (hin hf), hs⟩)
          fun f hf => hvis f (hrest hf)
      exact ⟨mid, hmid, ⟨pfn, order⟩ :: blocks, hlimit, ⟨rfl, htiles⟩, by rw [hB]; exact hlisted⟩
    · rintro blocks a' ⟨htiles, hall, h', hv'⟩
      rw [hbase₁, hlast₁] at hall
      refine ⟨⟨rfl, htiles⟩, fun b hb => ?_, by rw [hB]; exact h', hv'.trans hv₁⟩
      rcases List.mem_cons.mp hb with rfl | hb
      · exact hcarved
      · exact hall b hb

theorem ensureNoneFree_ends :
    (ensureNoneFree count start).Ends v a
      (fun _ a' => a' = a ∧ ∀ f ∈ Finset.Ico start (start + count),
        a.view.hidden f = false → f ∉ a.view.free)
      fun a' => a' = a ∧ ∃ f ∈ Finset.Ico start (start + count), f ∈ a.view.free := by
  have hscan : a.registry.firstFree? count start = none ↔
      ∀ f ∈ Finset.Ico start (start + count), a.view.hidden f = false → f ∉ a.view.free :=
    Registry.firstFree?_eq_none_iff count start
  unfold ensureNoneFree
  rw [Op.ends_compute]
  constructor
  · intro _ hnone
    cases hfirst : a.registry.firstFree? count start with
    | none => exact ⟨rfl, hscan.mp hfirst⟩
    | some f =>
      rw [hfirst] at hnone
      cases hnone
  · intro fault hfault
    refine ⟨rfl, ?_⟩
    by_contra hn
    rw [hscan.mpr fun f hf _ hfree => hn ⟨f, hf, hfree⟩] at hfault
    cases hfault

/-- **Taking over a run.** -/
theorem insertRun_ends (h : a.Keeps stale B) (start count : Nat) :
    (insertRun start count).Ends v a (fun blocks a' => Inserted stale a B start count blocks a')
      fun a' => a.view.Continues a'.view ∧
        (∃ B', B ⊆ B' ∧ a'.Keeps stale B' ∧
          a.view.free \ covered B ⊆ a'.view.free \ covered B') ∧
        (a.view.Sighted B → Aborted stale a B start count a') := by
  have hrejected : ∀ f ∈ Finset.Ico start (start + count),
      ¬ (a.view.Reaches f ∧ f ∉ a.view.free) → a.view.Continues a.view ∧
        (∃ B', B ⊆ B' ∧ a.Keeps stale B' ∧ a.view.free \ covered B ⊆ a.view.free \ covered B') ∧
        (a.view.Sighted B → Aborted stale a B start count a) := by
    intro f hf hno
    exact ⟨rfl, ⟨B, Finset.Subset.refl B, h, Finset.Subset.refl _⟩, fun _ => .rejected hf hno⟩
  unfold insertRun
  by_cases hcount : count = 0
  · subst hcount
    rw [if_pos rfl, Op.ends_bind, Op.ends_log]
    refine ⟨by simp, rfl, by simp, ?_, ?_⟩
    · rw [List.toFinset_nil, Finset.union_empty]
      exact h
    · rw [Nat.add_zero, Finset.Ico_self, Finset.union_empty]
  have hfirst : start ∈ Finset.Ico start (start + count) := Finset.mem_Ico.mpr (by omega)
  have hlast : start + count - 1 ∈ Finset.Ico start (start + count) :=
    Finset.mem_Ico.mpr (by omega)
  rw [if_neg hcount, Op.ends_bind, Op.ends_compute]
  refine ⟨fun stop hstop => ?_, fun fault hf => hrejected _ hlast fun hin => ?_⟩
  swap
  · have hnext := succ_lt_of_mem_run hin.1.1
    have hlimit := Word.limit_le_of_add_error hf
    omega
  obtain ⟨rfl, hstop⟩ := Word.add_eq_ok_iff.mp hstop
  rw [Op.ends_bind, Op.ends_ensure]
  refine ⟨fun hcontains => ?_, fun hn => ?_⟩
  swap
  · rcases not_and_or.mp hn with hn | hn
    · exact hrejected _ hfirst fun hin => hn (Registry.contains_iff.mpr hin.1.1)
    · exact hrejected _ hlast fun hin => hn (Registry.contains_iff.mpr hin.1.1)
  refine ensureNoneFree_ends.bind ?_ ?_
  · rintro a' ⟨he, f, hf, hfree⟩
    rw [he]
    exact hrejected f hf fun hin => hin.2 hfree
  rintro _ a₀ ⟨he, hnone⟩
  rw [he]
  refine (mark_ends h .free hstop fun hc => nomatch hc).bind ?_ ?_
  · intro a' ⟨h', mid, hmid, hreach, hm⟩
    have hfree : a.view.free ⊆ a'.view.free := by
      rw [hm.view]
      exact Finset.subset_union_left
    refine ⟨hm.continues, ⟨B, Finset.Subset.refl B, h', ?_⟩, fun _ => .gap hmid hreach ?_ hm h'⟩
    · exact Finset.sdiff_subset_sdiff hfree (Finset.Subset.refl _)
    · intro f hf
      have hrun := Finset.Ico_subset_Ico_right (Nat.le_of_lt (Finset.mem_Ico.mp hmid).2) hf
      exact hnone f hrun (hm.reaches f hf).2
  intro _ a₁ ⟨h₁, hm⟩
  have hv₁ : a₁.view = { a.view with free := a.view.free ∪ Finset.Ico start (start + count) } :=
    hm.view
  have hnew : ∀ f ∈ Finset.Ico start (start + count), a.view.Reaches f ∧ f ∉ a.view.free :=
    fun f hf => ⟨hm.reaches f hf, hnone f hf (hm.reaches f hf).2⟩
  have hbase₁ : a₁.base = a.base := congrArg (fun V => V.base) hv₁
  have hlast₁ : a₁.lastOrder = a.lastOrder := congrArg View.lastOrder hv₁
  have hbase : a.base ≤ start := (Finset.mem_Ico.mp (hm.reaches start hfirst).1).1
  have hdisj : Disjoint (Finset.Ico start (start + count)) (covered B) :=
    Finset.disjoint_left.mpr fun f hf hc => (hnew f hf).2 (h.sound.free hc)
  refine (carve_ends count h₁ (hbase₁ ▸ hbase) (Nat.le_add_right _ _) (Nat.le_refl _)
    (hv₁ ▸ Finset.subset_union_right) hdisj).bind ?_ ?_
  · rintro a' ⟨B', hsub, hcov, h', hv', hcause⟩
    rw [hv₁] at hv'
    refine ⟨by rw [hv']; rfl, ⟨B', hsub, h', fun f hf => ?_⟩, fun hs => ?_⟩
    · obtain ⟨hfree, hno⟩ := Finset.mem_sdiff.mp hf
      rw [hv', Finset.mem_sdiff]
      refine ⟨Finset.mem_union_left _ hfree, fun hmem => ?_⟩
      rcases Finset.mem_union.mp (hcov hmem) with hmem | hmem
      · exact (hnew f hmem).2 hfree
      · exact hno hmem
    rw [hv₁, hlast₁] at hcause
    obtain ⟨mid, hmid, blocks, hlimit, htiles, hlisted⟩ :=
      hcause hs fun f hf => (hnew f hf).1.2
    exact .cut hnew hmid hlimit htiles hlisted hv'
  rintro blocks a₂ ⟨htiles, hcarved, h₂, hv₂⟩
  rw [hbase₁, hlast₁] at hcarved
  rw [Op.ends_bind, Op.ends_query, Op.ends_bind, Op.ends_log]
  exact ⟨hnew, htiles, htiles.maximal hcarved, h₂, hv₂.trans hv₁⟩

/-- The blocks that come in were not in stock. -/
theorem Inserted.disjoint (h : a.Keeps stale B) (hi : Inserted stale a B start count blocks a') :
    Disjoint B blocks.toFinset := by
  rw [Finset.disjoint_left]
  intro b hb hnew
  have hrun := hi.tiles.frames_subset (List.mem_toFinset.mp hnew) b.pfn_mem_frames
  exact (hi.new b.pfn hrun).2 (h.sound.free (frames_subset_covered hb b.pfn_mem_frames))

/-- Blocks that tile frames which were not free add to the count of free pages. -/
theorem Keeps.total_of_tiles (h : a.Keeps stale B) (h' : a'.Keeps stale (B ∪ blocks.toFinset))
    (htiles : Tiles start stop blocks) (hnew : ∀ f ∈ Finset.Ico start stop, f ∉ a.view.free) :
    a'.totalFree = a.totalFree + (stop - start) := by
  have hdisj : Disjoint (covered B) (Finset.Ico start stop) := by
    rw [Finset.disjoint_right]
    intro f hf hc
    exact hnew f hf (h.sound.free hc)
  rw [h'.total, h'.sound.sum_size, covered_union, htiles.covered_eq,
    Finset.card_union_of_disjoint hdisj, Nat.card_Ico, ← h.sound.sum_size, ← h.total]

/-! ### Giving up -/

/-- Blocks in stock that tile the run are taken out of the stock `B`. -/
structure Withdrawn (stale : Set Nat) (a : Allocator) (B : Finset Block) (start stop : Nat)
    (blocks : List Block) (a' : Allocator) : Prop where
  tiles : Tiles start stop blocks
  mem : ∀ b ∈ blocks, b ∈ B
  keeps : a'.Keeps stale (B \ blocks.toFinset)
  view : a'.view = { a.view with free := a.view.free \ Finset.Ico start stop }

theorem Keeps.withdrawn (h : a.Keeps stale B) (start : Nat) :
    Withdrawn stale a B start start [] a where
  tiles := rfl
  mem := by simp
  keeps := by
    rw [List.toFinset_nil, Finset.sdiff_empty]
    exact h
  view := by rw [Finset.Ico_self, Finset.sdiff_empty]

theorem Withdrawn.cons (hb : b ∈ B)
    (hv₁ : a₁.view = { a.view with free := a.view.free \ b.frames })
    (h : Withdrawn stale a₁ (B.erase b) (b.pfn + b.size) stop blocks a') :
    Withdrawn stale a B b.pfn stop (b :: blocks) a' where
  tiles := ⟨rfl, h.tiles⟩
  mem := by
    intro c hc
    rcases List.mem_cons.mp hc with rfl | hc
    · exact hb
    · exact Finset.mem_of_mem_erase (h.mem c hc)
  keeps := by
    rw [List.toFinset_cons, Finset.sdiff_insert, ← Finset.erase_sdiff_comm]
    exact h.keeps
  view := by
    have hIco : b.frames ∪ Finset.Ico (b.pfn + b.size) stop = Finset.Ico b.pfn stop :=
      Finset.Ico_union_Ico_eq_Ico (Nat.le_add_right _ _) h.tiles.le
    rw [h.view, hv₁, sdiff_sdiff_left, Finset.sup_eq_union, hIco]

theorem Withdrawn.subset (h : Withdrawn stale a B start stop blocks a') : blocks.toFinset ⊆ B :=
  fun b hb => h.mem b (List.mem_toFinset.mp hb)

theorem Withdrawn.run_subset (h : Withdrawn stale a B start stop blocks a') :
    Finset.Ico start stop ⊆ covered B := by
  rw [← h.tiles.covered_eq]
  exact covered_mono h.subset

theorem headedOrderFrom?_ends (h : a.Keeps stale B) (pfn : Nat) : ∀ n order,
    (headedOrderFrom? pfn n order).Ends v a
      (fun found a' => a' = a ∧ match found with
        | some o => (⟨pfn, o⟩ : Block) ∈ B
        | none => a.view.Sighted B → ∀ o, order ≤ o → o < order + n → (⟨pfn, o⟩ : Block) ∉ B)
      fun _ => False := by
  intro n
  induction n with
  | zero => exact fun order => ⟨rfl, fun _ o h1 h2 => absurd h1 (Nat.not_le.mpr h2)⟩
  | succ n ih =>
    intro order
    rw [headedOrderFrom?]
    refine (isListed_ends h).bind (fun _ hf => hf) ?_
    rintro yes a₀ ⟨he, hyes⟩
    rw [he]
    cases yes with
    | true => exact ⟨rfl, hyes⟩
    | false =>
      rw [if_neg Bool.false_ne_true]
      refine (ih (order + 1)).mono ?_ fun _ hf => hf
      rintro found a' ⟨he', hfound⟩
      refine ⟨he', ?_⟩
      cases found with
      | some o => exact hfound
      | none =>
        intro hs o h1 h2
        rcases Nat.lt_or_eq_of_le h1 with h1 | rfl
        · exact hfound hs o h1 (by omega)
        · exact hyes hs

/-- **Looking for the block that starts at a frame.** -/
theorem headedOrder?_ends (h : a.Keeps stale B) (pfn : Nat) :
    (headedOrder? pfn).Ends v a
      (fun found a' => a' = a ∧ match found with
        | some o => (⟨pfn, o⟩ : Block) ∈ B
        | none => a.view.Sighted B → ∀ o, (⟨pfn, o⟩ : Block) ∉ B)
      fun _ => False := by
  unfold headedOrder?
  rw [Op.ends_bind, Op.ends_query]
  refine (headedOrderFrom?_ends h pfn (a.lastOrder + 1) 0).mono ?_ fun _ hf => hf
  rintro found a' ⟨he, hfound⟩
  refine ⟨he, ?_⟩
  cases found with
  | some o => exact hfound
  | none =>
    intro hs o hmem
    have hle : o ≤ a.lastOrder := h.sound.order_le _ hmem
    exact hfound hs o (Nat.zero_le o) (by omega) hmem

/-- **The run from `pfn` on is withdrawn**, one block a turn.  A fault leaves the blocks before it
withdrawn. -/
theorem withdraw_ends {stop : Nat} : ∀ (budget : Nat) {pfn : Nat} {a : Allocator}
    {B : Finset Block}, a.Keeps stale B → pfn ≤ stop → stop ≤ pfn + budget →
    (withdraw stop budget pfn).Ends v a
      (fun blocks a' => Withdrawn stale a B pfn stop blocks a')
      fun a' => a.view.Continues a'.view ∧ (∃ B', a'.Keeps stale B') ∧
        (a.view.Sighted B → ∃ mid < stop, ∃ blocks, Withdrawn stale a B pfn mid blocks a' ∧
          ∀ b ∈ B, b.pfn = mid → stop < mid + b.size) := by
  intro budget
  induction budget with
  | zero =>
    intro pfn a B h hle hbudget
    obtain rfl : pfn = stop := Nat.le_antisymm hle hbudget
    exact h.withdrawn pfn
  | succ budget ih =>
    intro pfn a B h hle hbudget
    have hstay : a.view.Continues a.view ∧ ∃ B', a.Keeps stale B' := ⟨rfl, B, h⟩
    rw [withdraw]
    by_cases hlt : pfn < stop
    swap
    · obtain rfl : pfn = stop := Nat.le_antisymm hle (Nat.le_of_not_lt hlt)
      rw [if_neg hlt]
      exact h.withdrawn pfn
    rw [if_pos hlt]
    refine (headedOrder?_ends h pfn).bind (fun _ hf => hf.elim) ?_
    rintro found a₀ ⟨he, hfound⟩
    rw [he]
    cases found with
    | none =>
      refine ⟨hstay.1, hstay.2, fun hs => ⟨pfn, hlt, [], h.withdrawn pfn, ?_⟩⟩
      rintro ⟨_, o⟩ hb rfl
      exact absurd hb (hfound hs o)
    | some order =>
      have hb : (⟨pfn, order⟩ : Block) ∈ B := hfound
      have hstop := stop_lt_of_subset_run (h.frames_subset_run hb)
      have hpos := Block.size_pos ⟨pfn, order⟩
      dsimp only
      rw [Op.ends_bind]
      refine Op.Ends.compute (Word.add_eq_ok_iff.mpr ⟨rfl, hstop⟩) ?_
      rw [Op.ends_bind, Op.ends_ensure]
      refine ⟨fun hend => ?_, fun hend => ⟨hstay.1, hstay.2, fun _ =>
        ⟨pfn, hlt, [], h.withdrawn pfn, fun b hbB hpfn => ?_⟩⟩⟩
      swap
      · rw [h.sound.eq_of_pfn_eq hbB hb hpfn]
        exact Nat.lt_of_not_le hend
      rw [← bind_assoc]
      refine (takeOut_ends h hb).bind (fun a' hs => ?_) ?_
      · obtain ⟨B', hkeeps, _⟩ := hs.keeps
        exact ⟨hs.continues, ⟨B', hkeeps⟩, fun hsight => (hs.cause hsight).elim⟩
      rintro _ a₁ ⟨h₁, hv₁⟩
      have hcont : a.view.Continues a₁.view := by rw [hv₁]; rfl
      have hsight : a.view.Sighted B → a₁.view.Sighted (B.erase ⟨pfn, order⟩) := fun hs =>
        hcont.sighted (hs.mono (Finset.erase_subset _ B))
      refine (ih h₁ hend (by omega)).bind ?_ ?_
      · rintro a' ⟨hcont', hkeeps, hwhy⟩
        refine ⟨hcont.trans hcont', hkeeps, fun hs => ?_⟩
        obtain ⟨mid, hmid, blocks, hw, hno⟩ := hwhy (hsight hs)
        refine ⟨mid, hmid, _, hw.cons hb hv₁, fun c hc hpfn => ?_⟩
        refine hno c (Finset.mem_erase.mpr ⟨?_, hc⟩) hpfn
        rintro rfl
        have hle := hw.tiles.le
        change pfn = mid at hpfn
        omega
      · intro blocks a' hw
        exact hw.cons hb hv₁

/-- **Giving up a run.** -/
theorem removeRun_ends (h : a.Keeps stale B) (start count : Nat) :
    (removeRun start count).Ends v a
      (fun blocks a' => Withdrawn stale a B start (start + count) blocks a')
      fun a' => (Word.limit ≤ start + count ∧ a' = a) ∨
        (start + count < Word.limit ∧ a.view.Continues a'.view ∧ (∃ B', a'.Keeps stale B') ∧
          (a.view.Sighted B → ∃ mid < start + count, ∃ blocks,
            Withdrawn stale a B start mid blocks a' ∧
            ∀ b ∈ B, b.pfn = mid → start + count < mid + b.size)) := by
  unfold removeRun
  by_cases hcount : count = 0
  · subst hcount
    rw [if_pos rfl, Op.ends_bind, Op.ends_log]
    exact h.withdrawn start
  rw [if_neg hcount, Op.ends_bind, Op.ends_compute]
  refine ⟨fun stop hstop => ?_, fun fault hf => Or.inl ⟨?_, rfl⟩⟩
  · obtain ⟨rfl, hlt⟩ := Word.add_eq_ok_iff.mp hstop
    refine (withdraw_ends count h (Nat.le_add_right _ _) (Nat.le_refl _)).bind
      (fun _ hs => Or.inr ⟨hlt, hs⟩) ?_
    intro blocks a' hw
    rw [Op.ends_bind, Op.ends_query, Op.ends_bind, Op.ends_log]
    exact hw
  · exact Word.limit_le_of_add_error hf

end BuddySystem.Allocator
