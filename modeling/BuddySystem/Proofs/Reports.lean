import BuddySystem.Proofs.Accounting

/-!
# When a report overflows

A request that finds no block is reported, and the sizes in the report are products that
need not fit into a number.  So the report can end in a fault, which takes the place of
the refusal.  The lists, the frames and the count of free pages are left alone by both.

`Op.FaultsIff` says of an operation that only looks when it faults.  The report is taken
apart with it, line by line (`report_faultsIff`).  What is left is arithmetic: where lines
are recorded, the pages of one order are among the free pages, so the sizes of the orders
do not overflow unless the size of all free pages does.  Where nothing is recorded, just
the size of one block of each order is still computed.

* `Reports`, `reports_of_history`: in a history over a new table with pages of any size.
-/

namespace BuddySystem

/-- The operation faults just when `P` holds, and leaves the state as it was in any case. -/
def Op.FaultsIff {σ α : Type} (x : Op σ α) (v : Verbosity) (s : σ) (P : Prop) : Prop :=
  x.Ends v s (fun _ s' => s' = s ∧ ¬ P) fun s' => s' = s ∧ P

namespace Op

variable {σ α β : Type} {x : Op σ α} {f : α → Op σ β} {v : Verbosity} {s : σ} {P P' : Prop}

theorem FaultsIff.congr (h : x.FaultsIff v s P) (hP : P ↔ P') : x.FaultsIff v s P' :=
  propext hP ▸ h

theorem FaultsIff.bind (h : x.FaultsIff v s P) (hf : ∀ a, (f a).FaultsIff v s P') :
    (x >>= f).FaultsIff v s (P ∨ P') := by
  refine Ends.bind h ?_ ?_
  · intro s' ⟨hs, hP⟩
    exact ⟨hs, Or.inl hP⟩
  · intro a s' ⟨hs, hP⟩
    rw [hs]
    refine Ends.mono (hf a) ?_ ?_
    · intro b s'' ⟨hs', hP'⟩
      exact ⟨hs', not_or.mpr ⟨hP, hP'⟩⟩
    · intro s'' ⟨hs', hP'⟩
      exact ⟨hs', Or.inr hP'⟩

theorem faultsIff_pure (a : α) : (pure a : Op σ α).FaultsIff v s False :=
  ⟨rfl, fun hf => hf⟩

theorem faultsIff_compute_bind {result : Except Fault α} {a : α} (hresult : result = .ok a)
    (h : (f a).FaultsIff v s P) : (compute (fun _ => result) >>= f).FaultsIff v s P := by
  unfold FaultsIff Ends
  rw [compute_bind_of_ok hresult]
  exact h

theorem faultsIff_mul_bind {m n : Nat} {f : Nat → Op σ β}
    (h : m * n < Word.limit → (f (m * n)).FaultsIff v s P) :
    (compute (fun _ => Word.mul m n) >>= f).FaultsIff v s (Word.limit ≤ m * n ∨ P) := by
  by_cases hlt : m * n < Word.limit
  · refine (faultsIff_compute_bind (Word.mul_eq_ok_iff.mpr ⟨rfl, hlt⟩) (h hlt)).congr ?_
    exact (or_iff_right (Nat.not_le.mpr hlt)).symm
  · have hfault : Word.mul m n = .error (.overflow .multiplication) := if_neg hlt
    unfold FaultsIff Ends
    rw [bind_of_error (show compute (fun _ => Word.mul m n) v s = _ by rw [compute, hfault])]
    exact ⟨rfl, Or.inl (Nat.le_of_not_lt hlt)⟩

end Op

/-! ### The lines of a report -/

namespace Exhaustion

variable {σ : Type} {v : Verbosity} {s : σ} {pageSize order : Nat} {stats : Stats}
  {count : Nat → Nat}

theorem logLine_ok_faultsIff (line : Line) : (logLine (.ok line)).FaultsIff v s False := by
  unfold logLine Op.FaultsIff Op.Ends Op.logComputed
  by_cases hv : v.shows .error = true <;> simp [hv, Except.map]

/-- A line with a product is computed only if it is recorded. -/
theorem logLine_mul_faultsIff (m n : Nat) (line : Nat → Line) :
    (logLine (Word.mul m n >>= fun bytes => pure (line bytes))).FaultsIff v s
      (v.shows .error = true ∧ Word.limit ≤ m * n) := by
  unfold logLine Op.FaultsIff Op.Ends Op.logComputed Word.mul
  by_cases hv : v.shows .error = true
  · by_cases hlt : m * n < Word.limit
    · simp [hv, hlt, Except.map, bind, Except.bind, pure, Except.pure]
    · simp [hv, hlt, Except.map, bind, Except.bind, Nat.le_of_not_lt hlt]
  · simp [hv]

theorem requestLine_eq (ho : order < 64) : requestLine pageSize order =
    Word.mul (2 ^ order) pageSize >>= fun bytes =>
      pure (.request order (2 ^ order) (bytes / 1024)) := by
  rw [requestLine, Word.shiftOne_eq_ok_iff.mpr ⟨ho, rfl⟩]
  rfl

/-- **The lines on the orders**: the size of one block is computed in any case. -/
theorem reportOrders_faultsIff (orders : Nat) (horders : orders ≤ 64)
    (hcount : ∀ o < orders, stats.blocksOf o = .ok (count o)) :
    (reportOrders pageSize stats orders : Op σ Unit).FaultsIff v s
      (∃ o < orders, 0 < count o ∧ (Word.limit ≤ 2 ^ o * pageSize ∨
        (v.shows .error = true ∧ Word.limit ≤ count o * (2 ^ o * pageSize)))) := by
  induction orders with
  | zero => exact (Op.faultsIff_pure ()).congr (by simp)
  | succ n ih =>
    have hrest := ih (Nat.le_of_succ_le horders) fun o ho => hcount o (Nat.lt_succ_of_lt ho)
    rw [reportOrders]
    apply Op.faultsIff_compute_bind (hcount n (Nat.lt_succ_self n))
    by_cases hpos : 0 < count n
    · rw [if_pos hpos]
      have hpages : Word.shiftOne n = .ok (2 ^ n) :=
        Word.shiftOne_eq_ok_iff.mpr ⟨horders, rfl⟩
      refine Op.FaultsIff.congr (Op.faultsIff_compute_bind hpages
        (Op.faultsIff_mul_bind fun _ => (logLine_mul_faultsIff _ _ _).bind fun _ => hrest)) ?_
      rw [Nat.exists_lt_succ_right]
      simp only [hpos, true_and]
      exact or_rotate.symm
    · rw [if_neg hpos]
      refine hrest.congr ?_
      rw [Nat.exists_lt_succ_right]
      simp [hpos]

/-- **When a report overflows.** -/
theorem report_faultsIff (lastOrder : Nat) (hlast : lastOrder < 64) (ho : order < 64)
    (hcount : ∀ o ≤ lastOrder, stats.blocksOf o = .ok (count o)) :
    (report pageSize lastOrder stats order : Op σ Unit).FaultsIff v s
      ((v.shows .error = true ∧
          (Word.limit ≤ 2 ^ order * pageSize ∨ Word.limit ≤ stats.freePages * pageSize)) ∨
        ∃ o ≤ lastOrder, 0 < count o ∧ (Word.limit ≤ 2 ^ o * pageSize ∨
          (v.shows .error = true ∧ Word.limit ≤ count o * (2 ^ o * pageSize)))) := by
  have hok : ∀ line, (logLine (.ok line) : Op σ Unit).FaultsIff v s False :=
    logLine_ok_faultsIff
  have horders : (reportOrders pageSize stats (lastOrder + 1) : Op σ Unit).FaultsIff v s _ :=
    reportOrders_faultsIff (lastOrder + 1) hlast fun o hlt => hcount o (Nat.le_of_lt_succ hlt)
  rw [report, requestLine_eq ho]
  refine Op.FaultsIff.congr ((hok _).bind fun _ => (logLine_mul_faultsIff _ _ _).bind fun _ =>
    (logLine_mul_faultsIff stats.freePages pageSize _).bind fun _ => (hok _).bind fun _ =>
    (hok _).bind fun _ => (hok _).bind fun _ => horders.bind fun _ => hok _) ?_
  simp only [Nat.lt_succ_iff, false_or, or_false, and_or_left, or_assoc]

end Exhaustion

namespace Allocator

/-- The allocator with one more request counted as failed. -/
def withFailure (a : Allocator) : Allocator :=
  { a with counters := { a.counters with
    failedAllocations := a.counters.failedAllocations + 1 } }

/-- A size in the report on a request of the order does not fit into a number.  At a verbosity that
records nothing, the sizes are those of one block of each order that has any. -/
def ReportOverflows (a : Allocator) (order : Nat) : Verbosity → Prop
  | some _ => Word.limit ≤ 2 ^ order * a.registry.pageSize ∨
      Word.limit ≤ a.totalFree * a.registry.pageSize
  | none => ∃ o, a.heads o ≠ [] ∧ Word.limit ≤ 2 ^ o * a.registry.pageSize

/-- The request is counted as one that failed, and the report on it may end it in a fault. -/
structure Reports (a : Allocator) (order : Nat) (v : Verbosity) (x : Outcome Allocator Reply) :
    Prop where
  faults_iff : (∃ fault, x.value = .error fault) ↔ a.ReportOverflows order v
  refused : ¬ a.ReportOverflows order v → x.value = .ok (.refused .noMemory)
  /-- Fault or not, nothing but the counter changes. -/
  state : x.state = a.withFailure

variable {stale : Set Nat} {a a₀ : Allocator} {B : Finset Block} {log : List Exchange}
  {order : Nat} {v : Verbosity}

/-! ### The sizes -/

/-- The pages of one order are among the free pages. -/
theorem Keeps.blockCount_mul_le (h : a.Keeps stale B) (o : Nat) :
    a.blockCount o * 2 ^ o ≤ a.totalFree := by
  rw [h.blockCount_eq, Nat.mul_comm, ← sum_size_order, h.total]
  exact Finset.sum_le_sum_of_subset (Finset.filter_subset _ B)

theorem Complete.blockCount_pos_iff (hB : a.Complete B) {o : Nat} :
    0 < a.blockCount o ↔ a.heads o ≠ [] := by
  rw [hB.keeps.blockCount_eq, Finset.card_pos]
  constructor
  · intro ⟨b, hb⟩
    obtain ⟨hmem, rfl⟩ := Finset.mem_filter.mp hb
    exact List.ne_nil_of_mem (hB.mem_heads_iff.mpr hmem)
  · intro hne
    obtain ⟨p, hp⟩ := List.exists_mem_of_ne_nil _ hne
    exact ⟨⟨p, o⟩, Finset.mem_filter.mpr ⟨hB.mem_heads_iff.mp hp, rfl⟩⟩

/-- **Which sizes can overflow.** -/
theorem Complete.reportOverflows_iff (hB : a.Complete B) :
    ((v.shows .error = true ∧ (Word.limit ≤ 2 ^ order * a.registry.pageSize ∨
        Word.limit ≤ a.totalFree * a.registry.pageSize)) ∨
      ∃ o ≤ a.lastOrder, 0 < a.blockCount o ∧ (Word.limit ≤ 2 ^ o * a.registry.pageSize ∨
        (v.shows .error = true ∧
          Word.limit ≤ a.blockCount o * (2 ^ o * a.registry.pageSize)))) ↔
      a.ReportOverflows order v := by
  cases v with
  | none =>
    have hquiet : Verbosity.shows none .error = false := rfl
    simp only [hquiet, Bool.false_eq_true, false_and, false_or, or_false, ReportOverflows]
    constructor
    · rintro ⟨o, _, hpos, hlarge⟩
      exact ⟨o, hB.blockCount_pos_iff.mp hpos, hlarge⟩
    · rintro ⟨o, hne, hlarge⟩
      have hpos := hB.blockCount_pos_iff.mpr hne
      refine ⟨o, ?_, hpos, hlarge⟩
      by_contra hgt
      rw [blockCount, if_neg hgt] at hpos
      exact Nat.lt_irrefl 0 hpos
  | some least =>
    have hshows : Verbosity.shows (some least) .error = true := by cases least <;> rfl
    simp only [hshows, true_and, ReportOverflows]
    refine or_iff_left_of_imp ?_
    rintro ⟨o, _, hpos, hlarge⟩
    -- Either product is the size of some listed pages, so it is at most that of all free ones.
    have hle := Nat.mul_le_mul_right a.registry.pageSize (hB.keeps.blockCount_mul_le o)
    rw [Nat.mul_assoc] at hle
    have hone := Nat.le_mul_of_pos_left (2 ^ o * a.registry.pageSize) hpos
    rcases hlarge with hlarge | hlarge
    · exact Or.inr (hlarge.trans (hone.trans hle))
    · exact Or.inr (hlarge.trans hle)

/-! ### Requests that find no block -/

theorem reportExhaustion_faultsIff (hB : a.Complete B) (ho : order ≤ a.lastOrder) :
    (reportExhaustion order).FaultsIff v a.withFailure (a.ReportOverflows order v) := by
  have hlast := a.lastOrder_le
  have hcount : ∀ o ≤ a.lastOrder, a.withFailure.stats.blocksOf o = .ok (a.blockCount o) := by
    intro o hle
    rw [Stats.blocksOf, blocksByOrder_eq _ (hle.trans hlast)]
    rfl
  unfold reportExhaustion Op.FaultsIff
  rw [Op.ends_bind, Op.ends_query, Op.ends_bind, Op.ends_query, Op.ends_bind, Op.ends_query]
  have hmax : maxOrder < 64 := by decide
  exact (Exhaustion.report_faultsIff a.lastOrder (by omega) (by omega) hcount).congr
    hB.reportOverflows_iff

/-- **A request that finds no block changes the counter and nothing else**, and it faults just when
a size in the report overflows. -/
theorem reports_of_history (hfresh : a₀.Fresh) (h : History a₀ log a) (hanswered : Answered log)
    (ho : order ≤ a.lastOrder) (hnone : ∀ o ≤ a.lastOrder, order ≤ o → a.heads o = [])
    (hcounter : a.counters.failedAllocations + 1 < Word.limit) (hints : Hints) (v : Verbosity) :
    Reports a order v (perform (.allocate order hints) v a) := by
  obtain ⟨B, hB⟩ := complete_of_history hfresh h fun e he _ _ _ => hanswered e he
  have hlowest : a.lowest? order = none := by
    have hcases := lowest?_cases hB.keeps ho
    cases hfound : a.lowest? order with
    | none => rfl
    | some source =>
      rw [hfound] at hcases
      have hempty := hnone _ (hB.keeps.sound.order_le source hcases.mem) hcases.order_le
      exact absurd hempty (List.ne_nil_of_mem (hB.mem_heads_iff.mpr hcases.mem))
  have hends : (perform (.allocate order hints)).Ends v a
      (fun reply a' => reply = .refused .noMemory ∧ a' = a.withFailure ∧
        ¬ a.ReportOverflows order v)
      fun a' => a' = a.withFailure ∧ a.ReportOverflows order v := by
    rw [perform, Op.ends_bind, allocate, Op.ends_bind, Op.ends_query, if_neg (Nat.not_lt.mpr ho),
      Op.ends_bind, Op.ends_query, hlowest]
    dsimp only
    rw [Op.ends_bind, Op.ends_query, Op.ends_bind, Op.ends_log, countFailure, count, Op.ends_bind,
      Op.ends_bind]
    refine Op.Ends.compute (Word.add_eq_ok_iff.mpr ⟨rfl, hcounter⟩) ?_
    rw [Op.ends_modify]
    refine Op.Ends.bind (reportExhaustion_faultsIff hB ho) (fun _ hfault => hfault) ?_
    intro _ a' hstate
    exact ⟨rfl, hstate⟩
  rcases hx : perform (.allocate order hints) v a with ⟨fault | reply, a', events⟩
  · obtain ⟨hstate, hover⟩ := hends.of_error hx
    exact ⟨iff_of_true ⟨fault, rfl⟩ hover, fun hnot => absurd hover hnot, hstate⟩
  · obtain ⟨rfl, hstate, hnot⟩ := hends.of_ok hx
    exact ⟨iff_of_false (by simp) hnot, fun _ => rfl, hstate⟩

/-- One page of half the address space is listed.  The size of two of them is computed only for a
line in the report. -/
theorem reports_of_half_the_space :
    ∃ a₀ log a, a₀.Fresh ∧ History a₀ log a ∧ Answered log ∧ a.registry.pageSize = 2 ^ 63 ∧
      a.heads 0 = [3] ∧
      Reports a 1 none (perform (.allocate 1 Hints.empty) none a) ∧
      (perform (.allocate 1 Hints.empty) none a).value = .ok (.refused .noMemory) ∧
      Reports a 1 (some .error) (perform (.allocate 1 Hints.empty) (some .error) a) ∧
      (perform (.allocate 1 Hints.empty) (some .error) a).value =
        .error (.overflow .multiplication) := by
  have hrun : ∃ a₀ log a, Fresh a₀ ∧ History a₀ log a ∧ Answered log ∧
      a.registry.pageSize = 2 ^ 63 ∧ a.heads 0 = [3] ∧ 1 ≤ a.lastOrder ∧
      (∀ o ≤ a.lastOrder, 1 ≤ o → a.heads o = []) ∧
      a.counters.failedAllocations + 1 < Word.limit ∧
      (perform (.allocate 1 Hints.empty) none a).value = .ok (.refused .noMemory) ∧
      (perform (.allocate 1 Hints.empty) (some .error) a).value =
        .error (.overflow .multiplication) := by
    refine ⟨_, _, _, ⟨2 ^ 63, 3, 8, 1, _, rfl, rfl⟩, .call none (.insert 3 1) .start, ?_⟩
    decide +kernel
  obtain ⟨a₀, log, a, hfresh, h, hanswered, hsize, hpages, ho, hnone, hcounter, hquiet, hloud⟩ :=
    hrun
  exact ⟨a₀, log, a, hfresh, h, hanswered, hsize, hpages,
    reports_of_history hfresh h hanswered ho hnone hcounter Hints.empty none, hquiet,
    reports_of_history hfresh h hanswered ho hnone hcounter Hints.empty (some .error),
    hloud⟩

end Allocator

end BuddySystem
