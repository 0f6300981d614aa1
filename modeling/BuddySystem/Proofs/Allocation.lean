import BuddySystem.Allocator.Allocation
import BuddySystem.Proofs.Restructuring

/-!
# Handing out and taking back blocks

A request takes the lowest of the smallest blocks in stock that are large enough
(`Lowest`); `allocate_ends` says that the block handed out is the lower end of that
one, and that the stock loses it and gains its `splinters`.  A request that gets no
block leaves the stock as it is.

A block given back is taken if its frames can all be reached and are allocated
(`View.Takes`).  `free_ends` says that otherwise nothing changes, and that a block
taken comes into stock and goes through a cascade of merges (`Ascends`).
-/

namespace BuddySystem

/-- Of the blocks of at least the given order, `c` is the lowest of those of the smallest order. -/
structure Lowest (B : Finset Block) (order : Nat) (c : Block) : Prop where
  mem : c ∈ B
  order_le : order ≤ c.order
  least : ∀ b ∈ B, order ≤ b.order → c.order < b.order ∨ c.order = b.order ∧ c.pfn ≤ b.pfn

/-- The allocator can have the block, and its frames can all be reached and are allocated. -/
structure View.Takes (V : View) (b : Block) : Prop where
  order_le : b.order ≤ V.lastOrder
  aligned : b.Aligned V.base
  allocated : ∀ f ∈ b.frames, V.Reaches f ∧ f ∉ V.free

variable {V V' : View} {B B' : Finset Block} {b c : Block}

theorem View.Takes.continued (h : V.Takes b) (hcont : V.Continues V')
    (hfree : ∀ f ∈ b.frames, f ∉ V'.free) : V'.Takes b := by
  obtain ⟨ho, ha, hall⟩ := h
  rw [hcont]
  exact ⟨ho, ha, fun f hf => ⟨(hall f hf).1, hfree f hf⟩⟩

theorem View.Sighted.mono (h : V.Sighted B) (hB : B' ⊆ B) : V.Sighted B' := fun f hf =>
  h f (covered_mono hB hf)

theorem Lowest.unique {order : Nat} {c' : Block} (h : Lowest B order c) (h' : Lowest B order c') :
    c = c' := by
  have hle := h.least c' h'.mem h'.order_le
  have hge := h'.least c h.mem h.order_le
  obtain ⟨pfn, o⟩ := c
  obtain ⟨pfn', o'⟩ := c'
  dsimp only at hle hge
  rw [Block.mk.injEq]
  omega

theorem Lowest.not_mem {order o pfn : Nat} (h : Lowest B order c) (ho : order ≤ o)
    (hlt : o < c.order) : (⟨pfn, o⟩ : Block) ∉ B := by
  intro hm
  rcases h.least _ hm ho with hgt | ⟨heq, _⟩
  · exact Nat.lt_asymm hlt hgt
  · exact Nat.ne_of_gt hlt heq

theorem not_mem_splinters {pfn order n o : Nat} : (⟨pfn, o⟩ : Block) ∉ splinters pfn order n := by
  intro h
  have hpos := Nat.two_pow_pos o
  have hpfn := (mem_splinters.mp h).2.2
  omega

namespace Allocator

variable {stale : Set Nat} {a : Allocator} {v : Verbosity} {order : Nat}

/-! ### Handing out -/

theorem lowestFrom?_cases (h : a.Keeps stale B) : ∀ n order,
    match a.lowestFrom? n order with
    | some c => Lowest B order c
    | none => ∀ b ∈ B, order ≤ b.order → order + n ≤ b.order := by
  intro n
  induction n with
  | zero => exact fun order b _ ho => ho
  | succ n ih =>
    intro order
    obtain ⟨xs, hxs, hmem⟩ := h.spells order
    rw [lowestFrom?]
    cases xs with
    | nil =>
      have hhead : (a.list order).head = none := hxs.leads
      have hlt : ∀ b ∈ B, order ≤ b.order → order + 1 ≤ b.order := by
        intro b hb ho
        rcases Nat.lt_or_eq_of_le ho with hlt | rfl
        · exact hlt
        · exact absurd ((hmem b.pfn).mpr hb) List.not_mem_nil
      rw [hhead]
      dsimp only
      have hrest := ih (order + 1)
      split at hrest
      · exact ⟨hrest.mem, Nat.le_of_succ_le hrest.order_le,
          fun b hb ho => hrest.least b hb (hlt b hb ho)⟩
      · intro b hb ho
        have := hrest b hb (hlt b hb ho)
        omega
    | cons x xs =>
      have hhead : (a.list order).head = some x := hxs.leads.1
      rw [hhead]
      refine ⟨(hmem x).mp List.mem_cons_self, Nat.le_refl order, fun b hb ho => ?_⟩
      rcases Nat.lt_or_eq_of_le ho with hlt | rfl
      · exact Or.inl hlt
      · refine Or.inr ⟨rfl, ?_⟩
        rcases List.mem_cons.mp ((hmem b.pfn).mpr hb) with he | hm
        · exact Nat.le_of_eq he.symm
        · exact Nat.le_of_lt ((List.pairwise_cons.mp hxs.ascending).1 _ hm)

/-- **The block that a request gets its frames from.** -/
theorem lowest?_cases (h : a.Keeps stale B) (ho : order ≤ a.lastOrder) :
    match a.lowest? order with
    | some c => Lowest B order c
    | none => ∀ b ∈ B, b.order < order := by
  have hcases := lowestFrom?_cases h (a.lastOrder + 1 - order) order
  rw [lowest?]
  split at hcases
  · exact hcases
  · intro b hb
    by_contra hge
    have hle := hcases b hb (Nat.le_of_not_lt hge)
    have hlast : b.order ≤ a.lastOrder := h.sound.order_le b hb
    omega

/-- **A block leaves the stock and its frames are allocated.**  It is kept only if a block in stock
is hidden. -/
theorem takeOut_ends (h : a.Keeps stale B) (hb : b ∈ B) :
    (delist b >>= fun _ => mark .allocated b.size b.pfn).Ends v a
      (fun _ a' => a'.Keeps stale (B.erase b) ∧
        a'.view = { a.view with free := a.view.free \ b.frames })
      (Stopped stale a B False) := by
  refine (delist_ends h hb).bind (fun a' he => h.stopped he.1 he.2) ?_
  rintro _ a₁ ⟨h₁, hv₁⟩
  refine (mark_ends h₁ .allocated (stop_lt_of_subset_run (h.frames_subset_run hb))
    fun _ => (h.sound.disjoint_erase hb).symm).mono ?_ ?_
  · intro _ a' ⟨h', hm⟩
    have hv' := hm.view
    rw [hv₁] at hv'
    exact ⟨h', hv'⟩
  · intro a' ⟨h', f, hf, hreach, hm⟩
    have hcont := hm.continues
    rw [hv₁] at hcont hreach
    refine h'.stopped_blind hcont fun hsight => hreach ?_
    have hcov := frames_subset_covered hb hf
    exact ⟨a.view_free_subset (h.sound.free hcov), hsight f hcov⟩

/-- A block in stock is split until its lower end has the order. -/
theorem splitDown_source_ends {source : Block} (h : a.Keeps stale B) (hsource : source ∈ B)
    (ho : order ≤ source.order) :
    (splitDown source.pfn order (source.order - order)).Ends v a
      (fun _ a' =>
        a'.Keeps stale (insert ⟨source.pfn, order⟩
          (splinters source.pfn order (source.order - order) ∪ B.erase source)) ∧
        covered (insert ⟨source.pfn, order⟩
          (splinters source.pfn order (source.order - order) ∪ B.erase source)) = covered B ∧
        a'.view = { a.view with
          counters := { a.counters with splits := a.counters.splits + (source.order - order) } })
      (Stopped stale a B (Word.limit ≤ a.counters.splits + (source.order - order))) := by
  have hsrc : (⟨source.pfn, order + (source.order - order)⟩ : Block) = source := by
    rw [Nat.add_sub_cancel' ho]
  have hdown := splitDown_ends (v := v) (source.order - order) h (by rw [hsrc]; exact hsource)
  rw [hsrc] at hdown
  exact hdown

/-- **The lower end of a block in stock is handed out.** -/
theorem grant_ends {source : Block} (h : a.Keeps stale B) (hsource : source ∈ B)
    (ho : order ≤ source.order) (hints : Hints) :
    (grant source order hints).Ends v a
      (fun g a' => g = { toBlock := ⟨source.pfn, order⟩, hints } ∧
        (⟨source.pfn, order⟩ : Block).frames ⊆ covered B ∧
        covered (splinters source.pfn order (source.order - order) ∪ B.erase source) =
          covered B \ (⟨source.pfn, order⟩ : Block).frames ∧
        a'.Keeps stale (splinters source.pfn order (source.order - order) ∪ B.erase source) ∧
        a'.view = { a.view with
          free := a.view.free \ (⟨source.pfn, order⟩ : Block).frames
          counters := { a.counters with
            splits := a.counters.splits + (source.order - order)
            allocations := a.counters.allocations + 1 } })
      (Stopped stale a B (Word.limit ≤ a.counters.splits + (source.order - order) ∨
        Word.limit ≤ a.counters.allocations + 1)) := by
  unfold grant
  refine (splitDown_source_ends h hsource ho).bind (fun a' hs => hs.imp Or.inl) ?_
  rintro _ a₁ ⟨h₁, hcov, hv₁⟩
  have hfree : a₁.view.free = a.view.free := congrArg (fun V => V.free) hv₁
  have hcont : a.view.Continues a₁.view := by rw [hv₁]; rfl
  have hc₁ : a₁.counters = { a.counters with
      splits := a.counters.splits + (source.order - order) } := congrArg View.counters hv₁
  have hnew : (⟨source.pfn, order⟩ : Block) ∉
      splinters source.pfn order (source.order - order) ∪ B.erase source := by
    intro hm
    rcases Finset.mem_union.mp hm with hm | hm
    · exact not_mem_splinters hm
    · obtain ⟨hne, hm⟩ := Finset.mem_erase.mp hm
      exact hne (h.sound.eq_of_pfn_eq hm hsource rfl)
  have hmem := Finset.mem_insert_self (⟨source.pfn, order⟩ : Block)
    (splinters source.pfn order (source.order - order) ∪ B.erase source)
  have hsub : (⟨source.pfn, order⟩ : Block).frames ⊆ covered B :=
    hcov ▸ frames_subset_covered hmem
  have hcovered := h₁.sound.covered_erase hmem
  rw [Finset.erase_insert hnew, hcov] at hcovered
  rw [← bind_assoc]
  refine (takeOut_ends h₁ hmem).bind (fun a' hs => ?_) ?_
  · exact hs.after hcont hfree hcov fun _ hc => hc.elim
  rintro _ a₂ ⟨h₂, hv₂⟩
  rw [Finset.erase_insert hnew] at h₂
  have hc₂ : a₂.counters = a₁.counters := congrArg View.counters hv₂
  refine (count_ends h₂ _ _).bind (fun a' he => ?_) ?_
  · rw [hc₂, hc₁] at he
    refine (h₂.stopped he.1 fun _ => he.2).trans ?_ (fun hsight f hf => ?_) (fun _ => ?_)
      fun _ hc => Or.inr hc
    · exact hcont.trans (by rw [hv₂]; rfl)
    · rw [hv₂]
      refine hcont.sighted hsight f ?_
      rw [← hcov]
      exact covered_mono (Finset.subset_insert _ _) hf
    · rw [hv₂, hcovered, hfree]
      exact sdiff_sdiff_of_subset hsub
  · rintro _ a' ⟨h', hv'⟩
    rw [hv₂, hc₂, hc₁, hv₁] at hv'
    exact ⟨rfl, hsub, hcovered, h', hv'⟩

theorem still_reportOrders (pageSize : Nat) (stats : Stats) : ∀ orders,
    (Exhaustion.reportOrders pageSize stats orders : Op Allocator Unit).Still := by
  intro orders
  induction orders with
  | zero => exact Op.still_pure _
  | succ order ih =>
    refine (Op.still_compute _).bind fun count => ?_
    split
    · exact (Op.still_compute _).bind fun _ => (Op.still_compute _).bind fun _ =>
        (Op.still_logComputed _ _).bind fun _ => ih
    · exact ih

theorem still_reportExhaustion (order : Nat) : (reportExhaustion order).Still := by
  refine (Op.still_query _).bind fun _ => (Op.still_query _).bind fun _ =>
    (Op.still_query _).bind fun _ => ?_
  refine (Op.still_logComputed _ _).bind fun _ => (Op.still_logComputed _ _).bind fun _ =>
    (Op.still_logComputed _ _).bind fun _ => (Op.still_logComputed _ _).bind fun _ =>
    (Op.still_logComputed _ _).bind fun _ => (Op.still_logComputed _ _).bind fun _ => ?_
  exact (still_reportOrders _ _ _).bind fun _ => Op.still_logComputed _ _

/-- What a request replies, and what becomes of the stock `B`. -/
inductive Allocated (stale : Set Nat) (a : Allocator) (B : Finset Block) (order : Nat)
    (hints : Hints) : Except AllocError Grant → Allocator → Prop
  | invalid : a.lastOrder < order → Allocated stale a B order hints (.error .invalidOrder) a
  | exhausted {a' : Allocator} : order ≤ a.lastOrder → (∀ b ∈ B, b.order < order) →
      a'.Keeps stale B →
      a'.view = { a.view with counters :=
        { a.counters with failedAllocations := a.counters.failedAllocations + 1 } } →
      Allocated stale a B order hints (.error .noMemory) a'
  /-- The lower end of the lowest of the smallest blocks is handed out. -/
  | granted {a' : Allocator} {source : Block} : order ≤ a.lastOrder → Lowest B order source →
      (⟨source.pfn, order⟩ : Block).frames ⊆ covered B →
      covered (splinters source.pfn order (source.order - order) ∪ B.erase source) =
        covered B \ (⟨source.pfn, order⟩ : Block).frames →
      a'.Keeps stale (splinters source.pfn order (source.order - order) ∪ B.erase source) →
      a'.view = { a.view with
        free := a.view.free \ (⟨source.pfn, order⟩ : Block).frames
        counters := { a.counters with
          splits := a.counters.splits + (source.order - order)
          allocations := a.counters.allocations + 1 } } →
      Allocated stale a B order hints (.ok { toBlock := ⟨source.pfn, order⟩, hints }) a'

/-- **A request.**  A fault comes from a counter that is full, or from the report on a request that
gets no block. -/
theorem allocate_ends (h : a.Keeps stale B) (order : Nat) (hints : Hints) :
    (allocate order hints).Ends v a (Allocated stale a B order hints)
      (Stopped stale a B ((∀ b ∈ B, b.order < order) ∨ ∃ source, Lowest B order source ∧
        (Word.limit ≤ a.counters.splits + (source.order - order) ∨
          Word.limit ≤ a.counters.allocations + 1))) := by
  unfold allocate
  rw [Op.ends_bind, Op.ends_query]
  by_cases hlt : a.lastOrder < order
  · rw [if_pos hlt, Op.ends_bind, Op.ends_log]
    exact .invalid hlt
  have ho : order ≤ a.lastOrder := Nat.le_of_not_lt hlt
  have hcases := lowest?_cases h ho
  rw [if_neg hlt, Op.ends_bind, Op.ends_query]
  cases hlowest : a.lowest? order with
  | none =>
    rw [hlowest] at hcases
    dsimp only at hcases ⊢
    rw [Op.ends_bind, Op.ends_query, Op.ends_bind, Op.ends_log]
    refine (count_ends h _ _).bind (fun a' he => h.stopped he.1 fun _ => Or.inl hcases) ?_
    rintro _ a₁ ⟨h₁, hv₁⟩
    refine (still_reportExhaustion order).ends.bind (fun a' he => ?_) ?_
    · exact (h₁.stopped he fun _ => Or.inl hcases).after (by rw [hv₁]; rfl)
        (congrArg (fun V => V.free) hv₁) rfl fun _ hc => hc
    · intro _ a' he
      rw [he]
      exact .exhausted ho hcases h₁ hv₁
  | some source =>
    rw [hlowest] at hcases
    dsimp only at hcases ⊢
    refine (grant_ends h hcases.mem hcases.order_le hints).bind
      (fun a' hs => hs.imp fun hc => Or.inr ⟨source, hcases, hc⟩) ?_
    · rintro _ a' ⟨rfl, hsub, hcov, h', hv'⟩
      exact .granted ho hcases hsub hcov h' hv'

theorem Keeps.exists_lowest (h : a.Keeps stale B) (ho : order ≤ a.lastOrder) (hb : b ∈ B)
    (hob : order ≤ b.order) : ∃ source, Lowest B order source := by
  have hcases := lowest?_cases h ho
  cases hlowest : a.lowest? order with
  | none =>
    rw [hlowest] at hcases
    exact absurd hob (Nat.not_le.mpr (hcases b hb))
  | some source =>
    rw [hlowest] at hcases
    exact ⟨source, hcases⟩

/-- **A request for which there is a block is granted**, unless a counter is full. -/
theorem allocate_grants {source : Block} (h : a.Keeps stale B) (hs : a.view.Sighted B)
    (hlow : Lowest B order source)
    (hsplits : a.counters.splits + (source.order - order) < Word.limit)
    (hallocations : a.counters.allocations + 1 < Word.limit) (hints : Hints) :
    (allocate order hints).Ends v a
      (fun answer a' => answer = .ok { toBlock := ⟨source.pfn, order⟩, hints } ∧
        Allocated stale a B order hints answer a') fun _ => False := by
  have hle : source.order ≤ a.lastOrder := h.sound.order_le source hlow.mem
  refine (allocate_ends h order hints).mono (fun answer a' hallocated => ⟨?_, hallocated⟩) ?_
  · cases hallocated with
    | invalid hlt => exact absurd (hlow.order_le.trans hle) (Nat.not_le.mpr hlt)
    | exhausted _ hnone _ _ => exact absurd (hnone source hlow.mem) (Nat.not_lt.mpr hlow.order_le)
    | granted _ hlow' _ _ _ _ => rw [hlow.unique hlow']
  · intro a' hstopped
    rcases hstopped.cause hs with hnone | ⟨source', hlow', hfull⟩
    · exact Nat.not_lt.mpr hlow.order_le (hnone source hlow.mem)
    · rw [← hlow.unique hlow'] at hfull
      omega

/-! ### Taking back -/

theorem ensureAllocated_ends :
    (ensureAllocated b).Ends v a
      (fun _ a' => a' = a ∧ ∀ f ∈ b.frames, a.view.Reaches f ∧ f ∉ a.view.free)
      fun a' => a' = a ∧ ¬ ∀ f ∈ b.frames, a.view.Reaches f ∧ f ∉ a.view.free := by
  have hscan : a.registry.firstNotAllocated? b.size b.pfn = none ↔
      ∀ f ∈ b.frames, a.view.Reaches f ∧ f ∉ a.view.free := by
    rw [Registry.firstNotAllocated?_eq_none_iff]
    exact forall₂_congr fun f _ => and_congr_left' has_iff_reaches
  unfold ensureAllocated
  rw [Op.ends_compute, ← hscan]
  cases a.registry.firstNotAllocated? b.size b.pfn with
  | none => simp
  | some f => simp

/-- **The frames of a block are freed and it comes into stock.**  It stays out only if a block in
stock is hidden. -/
theorem takeIn_ends (h : a.Keeps stale B) (ht : a.view.Takes b) :
    (mark .free b.size b.pfn >>= fun _ => enlist b).Ends v a
      (fun _ a' => a'.Keeps stale (insert b B) ∧
        a'.view = { a.view with free := a.view.free ∪ b.frames })
      (Stopped stale a B False) := by
  have hdisj : Disjoint b.frames (covered B) := Finset.disjoint_left.mpr fun f hf hc =>
    (ht.allocated f hf).2 (h.sound.free hc)
  have hstop := stop_lt_of_subset_run fun f hf => (ht.allocated f hf).1.1
  refine (mark_ends h .free hstop fun hc => nomatch hc).bind ?_ ?_
  · intro a' ⟨_, f, hf, hn, _⟩
    exact absurd (ht.allocated f hf).1 hn
  intro _ a₁ ⟨h₁, hm⟩
  have hv₁ := hm.view
  have hcont₁ := hm.continues
  have hsound : a₁.view.Sound (insert b B) := by
    rw [hv₁]
    exact (hv₁ ▸ h₁.sound).add ht.order_le ht.aligned Finset.subset_union_right hdisj
  refine (enlist_ends h₁ hsound (not_mem_of_disjoint hdisj)).mono ?_ fun a' he => ?_
  · rintro _ a' ⟨h', hv'⟩
    exact ⟨h', hv'.trans hv₁⟩
  · rw [he.1]
    refine h₁.stopped_blind hcont₁ fun hs => he.2 (hcont₁.sighted ?_)
    exact sighted_insert.mpr ⟨fun f hf => (ht.allocated f hf).1.2, hs⟩

/-- What becomes of the stock `B` when `b` is taken back: `k` merges lead to the stock `B'`, which
has `c` in place of `b` and the buddies on the way. -/
structure Freed (stale : Set Nat) (a : Allocator) (B : Finset Block) (b : Block) (k : Nat)
    (B' : Finset Block) (c : Block) (a' : Allocator) : Prop where
  takes : a.view.Takes b
  covered : covered B' = b.frames ∪ covered B
  ascends : Ascends a.base (insert b B) b k B' c
  le : k ≤ a.lastOrder - b.order
  keeps : a'.Keeps stale B'
  view : a'.view = { a.view with
    free := a.view.free ∪ b.frames
    counters := { a.counters with
      frees := a.counters.frees + 1
      merges := a.counters.merges + k } }
  complete : a.view.Sighted B → c.order = a.lastOrder ∨ c.buddy a.base ∉ B'

/-- **Taking a block back.**  A block that is not taken leaves everything as it was; with a block
that is taken, a fault comes from a counter that is full. -/
theorem free_ends (h : a.Keeps stale B) (b : Block) :
    (free b).Ends v a (fun _ a' => ∃ k B' c, Freed stale a B b k B' c a')
      fun a' => (¬ a.view.Takes b ∧ a' = a) ∨ (a.view.Takes b ∧
        Stopped stale a B (Word.limit ≤ a.counters.frees + 1 ∨
          ∃ k ≤ a.lastOrder - b.order, ∃ B' c, Ascends a.base (insert b B) b k B' c ∧
            Word.limit ≤ a.counters.merges + k) a') := by
  unfold free
  rw [Op.ends_bind]
  refine ensureFits_ends (fun ho ha => ?_) fun hn =>
    Or.inl ⟨fun ht => hn ⟨ht.order_le, ht.aligned⟩, rfl⟩
  rw [Op.ends_bind, Op.ends_compute]
  refine ⟨fun stop hstop => ?_, fun fault hf => Or.inl ⟨fun ht => ?_, rfl⟩⟩
  swap
  · have hstop := stop_lt_of_subset_run fun f hf => (ht.allocated f hf).1.1
    exact absurd hstop (Nat.not_lt.mpr (Word.limit_le_of_add_error hf))
  refine ensureAllocated_ends.bind
    (fun a' ⟨he, hn⟩ => Or.inl ⟨fun ht => hn ht.allocated, he⟩) ?_
  rintro _ a₀ ⟨he, hall⟩
  rw [he]
  have htakes : a.view.Takes b := ⟨ho, ha, hall⟩
  have hsight : a.view.Sighted B → a.view.Sighted (insert b B) := fun hs =>
    sighted_insert.mpr ⟨fun f hf => (hall f hf).1.2, hs⟩
  have hlost : (a.view.free ∪ b.frames) \ covered (insert b B) = a.view.free \ covered B := by
    rw [covered_insert]
    exact union_sdiff_of_new fun f hf => (hall f hf).2
  rw [← bind_assoc]
  refine (takeIn_ends h htakes).bind
    (fun a' hs => Or.inr ⟨htakes, hs.imp fun hc => hc.elim⟩) ?_
  rintro _ a₂ ⟨h₂, hv₂⟩
  have hc₂ : a₂.counters = a.counters := congrArg View.counters hv₂
  refine (count_ends h₂ _ _).bind (fun a' he => Or.inr ⟨htakes, ?_⟩) ?_
  · rw [hc₂] at he
    refine (h₂.stopped he.1 fun _ => he.2).trans (by rw [hv₂]; rfl) (fun hs => ?_) (fun _ => ?_)
      fun _ hc => Or.inl hc
    · rw [hv₂]
      exact hsight hs
    · rw [hv₂]
      exact hlost
  rintro _ a₃ ⟨h₃, hv₃⟩
  rw [hv₂, hc₂] at hv₃
  have hc₃ : a₃.counters = { a.counters with frees := a.counters.frees + 1 } :=
    congrArg View.counters hv₃
  have hlast : a₃.lastOrder = a.lastOrder := congrArg View.lastOrder hv₃
  have hbase : a₃.base = a.base := congrArg (fun V => V.base) hv₃
  rw [Op.ends_bind, Op.ends_query, hlast]
  have hsight₃ : a.view.Sighted B → a₃.view.Sighted (insert b B) := fun hs => by
    rw [hv₃]
    exact hsight hs
  have hle : b.order + (a.lastOrder - b.order) = a.lastOrder := Nat.add_sub_cancel' ho
  refine (mergeUp_ends (a.lastOrder - b.order) h₃ (Finset.mem_insert_self b B)
    (by rw [hle, hlast])).mono ?_ ?_
  · rintro _ a' ⟨k, hk, B', c, hasc, hcov, h', hv', hend⟩
    rw [hbase, hle] at hend
    rw [covered_insert] at hcov
    rw [hbase] at hasc
    rw [hv₃, hc₃] at hv'
    exact ⟨k, B', c, htakes, hcov, hasc, hk, h', hv', fun hs => hend (hsight₃ hs)⟩
  · intro a' hs
    refine Or.inr ⟨htakes, hs.trans (by rw [hv₃]; rfl) hsight₃ (fun _ => ?_) fun _ hc => Or.inr ?_⟩
    · rw [hv₃]
      exact hlost
    · rw [hbase, hc₃] at hc
      exact hc

end Allocator

end BuddySystem
