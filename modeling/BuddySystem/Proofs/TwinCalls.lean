import BuddySystem.Proofs.Twins

/-!
# Calls made to twins

Every operation does to an allocator what it does to its twin, `d` frames higher.
The lemmas follow the operations down to their loops: a loop takes one turn in both
allocators and goes on, by induction on its budget.

* `allocate_alike`, `free_alike`: the same block is handed out, and a block is taken
  back by both or refused by both.
* `insertRun_alike`, `removeRun_alike`: runs are cut up in the same places.
* `perform_alike`: any call that can be moved up.
-/

namespace BuddySystem.Allocator

variable {d last order pfn start stop base count : Nat} {K known : Set Nat} {b : Block}
  {a a' : Allocator}

/-! ### Allocating -/

theorem splitDown_alike (pfn order : Nat) : ∀ splits, Fits d (order + splits) pfn →
    Paired d last K (splitDown pfn order splits) (splitDown (pfn + d) order splits)
      fun _ _ => True := by
  intro splits
  induction splits with
  | zero => exact fun _ => Op.alike_pure trivial
  | succ splits ih =>
    intro hroom
    refine (split_alike ⟨pfn, order + splits + 1⟩ hroom).bind fun _ _ _ => ?_
    exact ih (hroom.of_le (Nat.le_succ _))

theorem grant_alike (source : Block) (hints : Hints) (hle : order ≤ source.order)
    (hroom : Fits d source.order source.pfn) :
    Paired d last K (grant source order hints) (grant (source.shift d) order hints)
      fun g g' => g' = g.shift d := by
  have hsplits : order + (source.order - order) = source.order := by omega
  have hsplit : Paired d last K (splitDown source.pfn order (source.order - order))
      (splitDown (source.pfn + d) order (source.order - order)) fun _ _ => True :=
    splitDown_alike source.pfn order _ (hsplits.symm ▸ hroom)
  refine hsplit.bind fun _ _ _ => ?_
  refine (delist_alike ⟨source.pfn, order⟩).bind fun _ _ _ => ?_
  refine (mark_alike .allocated (hroom.of_le hle)).bind fun _ _ _ => ?_
  exact (count_alike _ _).bind fun _ _ _ => Op.alike_pure rfl

theorem reportOrders_alike (pageSize : Nat) (stats : Stats) : ∀ orders,
    Paired d last K (Exhaustion.reportOrders pageSize stats orders)
      (Exhaustion.reportOrders pageSize stats orders) fun _ _ => True := by
  have hcompute : ∀ x : Except Fault Nat, Paired d last K (Op.compute fun _ => x)
      (Op.compute fun _ => x) fun n n' => n' = n := fun x =>
    Op.alike_compute_same fun _ _ _ => rfl
  intro orders
  induction orders with
  | zero => exact Op.alike_pure trivial
  | succ order ih =>
    refine (hcompute _).bind ?_
    rintro _ count rfl
    by_cases hcount : 0 < count
    · rw [if_pos hcount]
      refine (hcompute _).bind ?_
      rintro _ pages rfl
      refine (hcompute _).bind ?_
      rintro _ blockSize rfl
      exact Op.Alike.bind (Op.alike_logComputed _ _) fun _ _ _ => ih
    · rw [if_neg hcount]
      exact ih

theorem report_alike (pageSize lastOrder : Nat) (stats : Stats) (order : Nat) :
    Paired d last K (Exhaustion.report pageSize lastOrder stats order)
      (Exhaustion.report pageSize lastOrder stats order) fun _ _ => True := by
  have hline : ∀ line, Paired d last K (Exhaustion.logLine line) (Exhaustion.logLine line)
      fun _ _ => True := fun line => Op.alike_logComputed _ _
  refine (hline _).bind fun _ _ _ => (hline _).bind fun _ _ _ => (hline _).bind fun _ _ _ => ?_
  refine (hline _).bind fun _ _ _ => (hline _).bind fun _ _ _ => (hline _).bind fun _ _ _ => ?_
  exact (reportOrders_alike _ _ _).bind fun _ _ _ => hline _

theorem reportExhaustion_alike (order : Nat) :
    Paired d last K (reportExhaustion order) (reportExhaustion order) fun _ _ => True := by
  have hpageSize : Paired d last K (Op.query fun a => a.registry.pageSize)
      (Op.query fun a => a.registry.pageSize) fun n n' => n' = n :=
    Op.alike_query fun _ _ ⟨_, _, h⟩ => h.registry.pageSize
  have hstats : Paired d last K (Op.query stats) (Op.query stats) fun s s' => s' = s :=
    Op.alike_query fun _ _ ⟨_, _, h⟩ => h.stats
  refine hpageSize.bind ?_
  rintro _ pageSize rfl
  refine lastOrder_alike.bind ?_
  rintro _ _ ⟨rfl, rfl⟩
  refine hstats.bind ?_
  rintro _ stats rfl
  exact report_alike _ _ _ _

/-- **Twins hand out the same block**, or neither has one. -/
theorem allocate_alike (order : Nat) (hints : Hints) :
    Paired d last K (allocate order hints) (allocate order hints)
      fun answer answer' => answer' = answer.map (Grant.shift d) := by
  have hlowest : Paired d last K (Op.query fun a => a.lowest? order)
      (Op.query fun a => a.lowest? order) fun found found' =>
        found' = found.map (Block.shift d) ∧
          ∀ b ∈ found, order ≤ b.order ∧ Fits d b.order b.pfn :=
    Op.alike_query fun _ _ ⟨_, _, h⟩ => h.lowest? order
  refine lastOrder_alike.bind ?_
  rintro _ _ ⟨rfl, rfl⟩
  split
  · exact Op.Alike.bind (Op.alike_log fun _ => rfl) fun _ _ _ => Op.alike_pure rfl
  refine hlowest.bind ?_
  rintro found _ ⟨rfl, hfound⟩
  cases found with
  | some source =>
    obtain ⟨hle, hroom⟩ := hfound source rfl
    refine (grant_alike source hints hle hroom).bind ?_
    rintro g _ rfl
    exact Op.alike_pure rfl
  | none =>
    refine totalFree_alike.bind ?_
    rintro _ totalFree rfl
    refine Op.Alike.bind (Op.alike_log fun _ => rfl) fun _ _ _ => ?_
    refine (count_alike _ _).bind fun _ _ _ => ?_
    exact (reportExhaustion_alike order).bind fun _ _ _ => Op.alike_pure rfl

/-! ### Freeing -/

theorem mergeUp_alike : ∀ (merges : Nat) (b : Block), Fits d (b.order + merges) b.pfn →
    Paired d last K (mergeUp merges b) (mergeUp merges (b.shift d)) fun _ _ => True := by
  intro merges
  induction merges with
  | zero => exact fun _ _ => Op.alike_pure trivial
  | succ merges ih =>
    intro b hroom
    refine (merge_alike b (hroom.of_le (Nat.le_add_right _ _))).bind ?_
    rintro merged _ ⟨rfl, hmerged⟩
    cases merged with
    | none => exact Op.alike_pure trivial
    | some m =>
      -- The merged block starts no later, and has one merge less before it.
      obtain ⟨hpfn, horder⟩ := hmerged m rfl
      refine ih m (hroom.mono ?_)
      rw [horder, show b.order + 1 + merges = b.order + (merges + 1) by omega]
      omega

/-- Where the frames of a block are all allocated, there is room after its first and last frame. -/
theorem room_of_allocated (h : a.Shifted d last known a')
    (hb : a.registry.firstNotAllocated? b.size b.pfn = none) :
    Fits d last b.pfn ∧ (d = 0 ∨ b.pfn + d + b.size < Word.limit) := by
  have hall := (Registry.firstNotAllocated?_eq_none_iff _ _).mp hb
  have hfits : ∀ f ∈ b.frames, Fits d last f := fun f hf =>
    h.registry.room f (Registry.has_iff.mp (hall f hf).1).1
  have hpos := b.size_pos
  refine ⟨hfits _ b.pfn_mem_frames, ?_⟩
  have hlast : b.pfn + b.size - 1 ∈ b.frames := Block.mem_frames.mpr ⟨by omega, by omega⟩
  refine (hfits _ hlast).imp_right fun hlt => ?_
  have := Nat.two_pow_pos last
  omega

/-- The checks that look at the frames of a block before it is taken back. -/
def checkAllocated (block : Block) : Op Allocator Unit := do
  let _ ← Op.compute fun _ => Word.add block.pfn block.size
  ensureAllocated block

theorem free_eq (b : Block) :
    free b = (do
      ensureFits .free b
      checkAllocated b
      mark .free b.size b.pfn
      enlist b
      countFree
      let lastOrder ← Op.query fun a => a.lastOrder
      mergeUp (lastOrder - b.order) b) := by
  unfold free checkAllocated
  rw [bind_assoc]

theorem ensureAllocated_alike (b : Block) :
    Paired d last K (ensureAllocated b) (ensureAllocated (b.shift d))
      fun _ _ => Fits d last b.pfn := by
  refine Op.alike_compute ?_
  rintro a a' ⟨_, _, h⟩
  rw [Block.pfn_shift, Block.size_shift, h.registry.firstNotAllocated?]
  cases hfirst : a.registry.firstNotAllocated? b.size b.pfn with
  | none => exact (room_of_allocated h hfirst).1
  | some f =>
    intro hd
    dsimp only [Option.map_some]
    rw [h.registry.has, hd]
    rfl

/-- **Twins take a block back only if all of its frames are allocated.**  A block past the end of
the run may be refused for different reasons. -/
theorem checkAllocated_alike (b : Block) :
    Paired d last K (checkAllocated b) (checkAllocated (b.shift d))
      fun _ _ => Fits d last b.pfn := by
  by_cases hsum : d = 0 ∨ b.pfn + d + b.size < Word.limit
  · exact (add_alike hsum).bind fun _ _ _ => ensureAllocated_alike b
  -- Only the higher block ends past the limit, so the lower one is not in the run.
  rintro v a a' ⟨known, hK, h⟩
  have htwins : a.Twins d last K a' := ⟨known, hK, h⟩
  have hover : Word.add (b.shift d).pfn (b.shift d).size = .error (.overflow .addition) :=
    Word.add_of_limit_le (Nat.le_of_not_lt fun hlt => hsum (.inr hlt))
  have hhigh : (checkAllocated (b.shift d)).Ends v a' (fun _ _ => False) fun s => s = a' := by
    unfold checkAllocated
    rw [Op.ends_bind, Op.ends_compute, hover]
    exact ⟨fun _ hn => (nomatch hn), fun _ _ => rfl⟩
  have hlow : (checkAllocated b).Ends v a (fun _ _ => False) fun s => s = a := by
    unfold checkAllocated ensureAllocated
    rw [Op.ends_bind, Op.ends_compute]
    refine ⟨fun _ _ => ?_, fun _ _ => rfl⟩
    rw [Op.ends_compute]
    refine ⟨fun _ hok => ?_, fun _ _ => rfl⟩
    cases hfirst : a.registry.firstNotAllocated? b.size b.pfn with
    | none => exact hsum (room_of_allocated h hfirst).2
    | some f =>
      rw [hfirst] at hok
      cases hok
  obtain ⟨_, _, _, hlow, rfl⟩ := hlow.exists_error
  obtain ⟨_, _, _, hhigh, rfl⟩ := hhigh.exists_error
  rw [hhigh, hlow]
  exact ⟨fun hd => absurd (.inl hd) hsum, htwins, fun hd => absurd (.inl hd) hsum⟩

/-- **A block is taken back by both or refused by both.** -/
theorem free_alike (b : Block) :
    Paired d last K (free b) (free (b.shift d)) fun _ _ => True := by
  rw [free_eq, free_eq]
  refine (ensureFits_alike _ b).bind fun _ _ hle => ?_
  refine (checkAllocated_alike b).bind fun _ _ hroom => ?_
  refine (mark_alike .free (hroom.of_le hle)).bind fun _ _ _ => ?_
  refine (enlist_alike b).bind fun _ _ _ => (count_alike _ _).bind fun _ _ _ => ?_
  refine lastOrder_alike.bind ?_
  rintro lastOrder _ ⟨rfl, rfl⟩
  refine mergeUp_alike _ b (hroom.of_le ?_)
  omega

/-! ### Handing over -/

theorem ensureNoneFree_alike (count start : Nat) :
    Paired d last K (ensureNoneFree count start) (ensureNoneFree count (start + d))
      fun _ _ => True := by
  refine Op.alike_compute ?_
  rintro a a' ⟨_, _, h⟩
  rw [h.registry.firstFree?]
  cases a.registry.firstFree? count start with
  | none => exact trivial
  | some f => exact fun hd => by rw [hd]; rfl

theorem fittingOrder_shift : ∀ order, Fits d order pfn →
    fittingOrder (base + d) (stop + d) (pfn + d) order = fittingOrder base stop pfn order := by
  intro order
  induction order with
  | zero => exact fun _ => rfl
  | succ order ih =>
    intro hroom
    have hadd : Word.add (pfn + d) (⟨pfn + d, order + 1⟩ : Block).size =
        (Word.add pfn (⟨pfn, order + 1⟩ : Block).size).map (· + d) := Word.add_shift hroom
    have haligned : (⟨pfn + d, order + 1⟩ : Block).isAligned (base + d) =
        (⟨pfn, order + 1⟩ : Block).isAligned base := Block.isAligned_shift d base ⟨pfn, order + 1⟩
    rw [fittingOrder, fittingOrder, hadd, ih (hroom.of_le (Nat.le_succ order))]
    cases Word.add pfn (⟨pfn, order + 1⟩ : Block).size with
    | error fault => rfl
    | ok n =>
      have hle : decide (n + d ≤ stop + d) = decide (n ≤ stop) :=
        decide_eq_decide.mpr Nat.add_le_add_iff_right
      change (if decide (n + d ≤ stop + d) && _ then _ else _) = _
      rw [hle, haligned]
      rfl

/-- **A run is cut up in the same places.** -/
theorem carve_alike (hroom : Fits d last (stop - 1)) : ∀ (budget pfn : Nat),
    Paired d last K (carve stop budget pfn) (carve (stop + d) budget (pfn + d))
      fun blocks blocks' => blocks' = blocks.map (Block.shift d) := by
  intro budget
  induction budget with
  | zero => exact fun _ => Op.alike_pure rfl
  | succ budget ih =>
    intro pfn
    rw [carve, carve]
    by_cases hlt : pfn < stop
    · rw [if_pos hlt, if_pos (Nat.add_lt_add_right hlt d)]
      have horder : Paired d last K
          (Op.compute fun a => fittingOrder a.base stop pfn a.lastOrder)
          (Op.compute fun a => fittingOrder a.base (stop + d) (pfn + d) a.lastOrder)
          fun order order' => order' = order := by
        refine Op.alike_compute_same ?_
        rintro a a' ⟨_, _, h⟩
        rw [h.base, h.lastOrder, h.lastOrder_eq, fittingOrder_shift last (hroom.mono (by omega))]
      refine horder.bind ?_
      rintro _ order rfl
      refine (enlist_alike ⟨pfn, order⟩).bind fun _ _ _ => ?_
      rw [Nat.add_right_comm]
      refine (ih _).bind ?_
      rintro blocks _ rfl
      exact Op.alike_pure rfl
    · rw [if_neg hlt, if_neg fun h => hlt (Nat.lt_of_add_lt_add_right h)]
      exact Op.alike_pure rfl

theorem insertRun_alike (hsum : d = 0 ∨ start + d + count < Word.limit) :
    Paired d last K (insertRun start count) (insertRun (start + d) count)
      fun blocks blocks' => blocks' = blocks.map (Block.shift d) := by
  unfold insertRun
  by_cases hcount : count = 0
  · rw [if_pos hcount, if_pos hcount]
    refine Op.Alike.bind (Op.alike_log fun hd => by rw [hd]; rfl) fun _ _ _ => ?_
    exact Op.alike_pure rfl
  rw [if_neg hcount, if_neg hcount]
  refine (add_alike hsum).bind ?_
  rintro stop _ ⟨rfl, he⟩
  have hend : stop + d - 1 = stop - 1 + d := by omega
  have hinside : Paired d last K
      (Op.ensure (fun a => a.registry.contains start ∧ a.registry.contains (stop - 1)) fun _ =>
        .rangeOutside start stop)
      (Op.ensure (fun a => a.registry.contains (start + d) ∧
        a.registry.contains (stop + d - 1)) fun _ => .rangeOutside (start + d) (stop + d))
      fun _ _ => Fits d last (stop - 1) := by
    rw [hend]
    refine Op.alike_ensure ?_ ?_ fun hd _ _ _ => by rw [hd]; rfl
    · rintro a a' ⟨_, _, h⟩
      rw [h.registry.contains, h.registry.contains]
    · rintro a a' ⟨_, _, h⟩ hcontains
      exact h.registry.room _ (Registry.contains_iff.mp hcontains.2)
  refine hinside.bind fun _ _ hroom => ?_
  refine (ensureNoneFree_alike count start).bind fun _ _ _ => ?_
  refine (mark_alike .free hsum).bind fun _ _ _ => ?_
  refine (carve_alike hroom count start).bind ?_
  rintro blocks _ rfl
  refine totalFree_alike.bind ?_
  rintro _ totalFree rfl
  refine Op.Alike.bind (Op.alike_log fun hd => by rw [hd]; rfl) fun _ _ _ => ?_
  exact Op.alike_pure rfl

/-! ### Withdrawing -/

theorem withdraw_alike : ∀ (budget pfn : Nat),
    Paired d last K (withdraw stop budget pfn) (withdraw (stop + d) budget (pfn + d))
      fun blocks blocks' => blocks' = blocks.map (Block.shift d) := by
  intro budget
  induction budget with
  | zero => exact fun _ => Op.alike_pure rfl
  | succ budget ih =>
    intro pfn
    rw [withdraw, withdraw]
    by_cases hlt : pfn < stop
    swap
    · rw [if_neg hlt, if_neg fun h => hlt (Nat.lt_of_add_lt_add_right h)]
      exact Op.alike_pure rfl
    rw [if_pos hlt, if_pos (Nat.add_lt_add_right hlt d)]
    refine (headedOrder?_alike pfn).bind ?_
    rintro _ found ⟨rfl, hfound⟩
    cases found with
    | none => exact Op.alike_fail fun hd => by rw [hd]; rfl
    | some order =>
      obtain ⟨hle, hroom⟩ := hfound order rfl
      refine (add_alike (hroom.of_le hle)).bind ?_
      rintro next _ ⟨rfl, _⟩
      have hends : Paired d last K
          (Op.ensure (fun _ => next ≤ stop) fun _ => .blockPastEnd pfn order stop)
          (Op.ensure (fun _ => next + d ≤ stop + d) fun _ =>
            .blockPastEnd (pfn + d) order (stop + d)) fun _ _ => True :=
        Op.alike_ensure (fun _ _ _ => Nat.add_le_add_iff_right) (fun _ _ _ _ => trivial)
          fun hd _ _ _ => by rw [hd]; rfl
      refine hends.bind fun _ _ _ => ?_
      refine (delist_alike ⟨pfn, order⟩).bind fun _ _ _ => ?_
      refine (mark_alike .allocated (hroom.of_le hle)).bind fun _ _ _ => (ih next).bind ?_
      rintro blocks _ rfl
      exact Op.alike_pure rfl

theorem removeRun_alike (hsum : d = 0 ∨ start + d + count < Word.limit) :
    Paired d last K (removeRun start count) (removeRun (start + d) count)
      fun blocks blocks' => blocks' = blocks.map (Block.shift d) := by
  unfold removeRun
  by_cases hcount : count = 0
  · rw [if_pos hcount, if_pos hcount]
    refine Op.Alike.bind (Op.alike_log fun hd => by rw [hd]; rfl) fun _ _ _ => ?_
    exact Op.alike_pure rfl
  rw [if_neg hcount, if_neg hcount]
  refine (add_alike hsum).bind ?_
  rintro stop _ ⟨rfl, _⟩
  refine (withdraw_alike count start).bind ?_
  rintro blocks _ rfl
  refine totalFree_alike.bind ?_
  rintro _ totalFree rfl
  refine Op.Alike.bind (Op.alike_log fun hd => by rw [hd]; rfl) fun _ _ _ => ?_
  exact Op.alike_pure rfl

/-! ### Calls -/

theorem listedHeads_alike (order : Nat) :
    Paired d last K (listedHeads order) (listedHeads order)
      fun pfns pfns' => pfns' = pfns.map (· + d) := by
  refine (ensureOrder_alike (order ≤ ·) fun _ => .orderOutOfRange order).bind fun _ _ _ => ?_
  refine Op.alike_query ?_
  rintro a a' ⟨_, _, h⟩
  exact h.heads order

/-- Twins over the same frames list the same bytes. -/
theorem Shifted.dumpLines (h : a.Shifted 0 last known a') : a'.dumpLines = a.dumpLines := by
  have hranges : ∀ o, a'.byteRanges o = a.byteRanges o := by
    intro o
    have hblocks : (fun pfn => Block.byteRange a'.registry ⟨pfn, o⟩) =
        fun pfn => Block.byteRange a.registry ⟨pfn, o⟩ :=
      funext fun pfn => Block.byteRange_congr h.registry.pageSize ⟨pfn, o⟩
    unfold byteRanges
    rw [h.heads, hblocks]
    exact congrArg _ (List.map_id _)
  unfold Allocator.dumpLines
  rw [h.lastOrder, h.lastOrder_eq, show a'.byteRanges = a.byteRanges from funext hranges]

theorem logDump_alike (hd : d = 0) :
    Paired d last K logDump logDump fun _ _ => True := by
  subst hd
  have hlines : Paired 0 last K (Op.compute dumpLines) (Op.compute dumpLines)
      fun lines lines' => lines' = lines := by
    refine Op.alike_compute_same ?_
    rintro a a' ⟨_, _, h⟩
    exact h.dumpLines
  refine hlines.bind ?_
  rintro _ lines rfl
  exact Op.alike_forM (fun line => Op.alike_log fun _ => rfl) lines

/-- **A call and the same call `d` frames higher do the same to twins.** -/
theorem perform_alike (call : Call) (hcall : d = 0 ∨ call.Movable d) :
    Paired d last K (perform call) (perform (call.shift d))
      fun reply reply' => reply' = reply.shift d := by
  cases call with
  | insert start count => exact (insertRun_alike hcall).map fun _ _ he => by rw [he]; rfl
  | remove start count => exact (removeRun_alike hcall).map fun _ _ he => by rw [he]; rfl
  | allocate order hints =>
    refine (allocate_alike order hints).bind ?_
    rintro answer _ rfl
    cases answer <;> exact Op.alike_pure rfl
  | free b => exact (free_alike b).bind fun _ _ _ => Op.alike_pure rfl
  | totalFree => exact Op.alike_query fun _ _ h => congrArg Reply.number h.totalFree
  | lastOrder =>
    refine Op.alike_query ?_
    rintro a a' ⟨_, _, h⟩
    rw [h.lastOrder, h.lastOrder_eq]
    rfl
  | blockCount order =>
    refine Op.alike_query ?_
    rintro a a' ⟨_, _, h⟩
    exact congrArg Reply.number (h.blockCount order)
  | heads order => exact (listedHeads_alike order).map fun _ _ he => by rw [he]; rfl
  | holds b => exact (holds_alike b).map fun _ _ he => by rw [he]; rfl
  | stats =>
    refine Op.alike_query ?_
    rintro a a' ⟨_, _, h⟩
    exact congrArg Reply.stats h.stats
  | dump =>
    obtain rfl : d = 0 := hcall.resolve_right id
    refine Op.Alike.map (Op.alike_compute_same ?_) fun _ _ he => by rw [he]; rfl
    rintro a a' ⟨_, _, h⟩
    unfold Allocator.dump
    rw [h.dumpLines]
  | logDump =>
    exact (logDump_alike (hcall.resolve_right id)).bind fun _ _ _ => Op.alike_pure rfl

/-! ### One call after another -/

/-- What comes of calls that are made one after another, each to the allocator that the call before
it leaves. -/
def outcomes : List (Verbosity × Call) → Allocator → List (Outcome Allocator Reply)
  | [], _ => []
  | (v, call) :: calls, a =>
    let outcome := perform call v a
    outcome :: outcomes calls outcome.state

/-- The same calls, `d` frames higher. -/
def shiftCalls (d : Nat) (calls : List (Verbosity × Call)) : List (Verbosity × Call) :=
  calls.map fun c => (c.1, c.2.shift d)

/-- **Twins stay twins call after call.** -/
theorem outcomes_alike : ∀ (calls : List (Verbosity × Call)) {a a' : Allocator},
    a.Twins d last K a' → (∀ c ∈ calls, d = 0 ∨ c.2.Movable d) →
    List.Forall₂
      (fun o o' => Concur (d = 0) (fun reply reply' => reply' = reply.shift d) o.value o'.value ∧
        o.state.Twins d last K o'.state ∧ (d = 0 → o'.events = o.events))
      (outcomes calls a) (outcomes (shiftCalls d calls) a') := by
  intro calls
  induction calls with
  | nil => exact fun _ _ => .nil
  | cons c calls ih =>
    intro a a' h hcalls
    obtain ⟨v, call⟩ := c
    have hcall := perform_alike call (hcalls _ List.mem_cons_self) v a a' h
    exact .cons hcall (ih hcall.2.1 fun c hc => hcalls c (List.mem_cons_of_mem _ hc))

/-- Over registries moved up, twins are built, or none of the two. -/
theorem create_alike {r r' : Registry} (h : r.Shifted d last K r') (strict : Prop) :
    Concur strict (Twins d last K) (create r last) (create r' last) := by
  unfold create
  split
  · have hempty : ∀ o : Nat, ((Vector.replicate (maxOrder + 1) FreeList.empty)[o]?).getD
        FreeList.empty = FreeList.empty := by
      intro o
      rw [Vector.getElem?_replicate]
      split <;> rfl
    refine ⟨K, Set.Subset.refl K, h, fun o => ?_, fun o p hp => ?_, rfl, rfl, rfl, rfl⟩
    · unfold list
      rw [hempty]
      rfl
    · unfold list at hp
      rw [hempty] at hp
      cases hp
  · exact fun _ => rfl

end BuddySystem.Allocator
