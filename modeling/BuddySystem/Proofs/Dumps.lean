import BuddySystem.Proofs.Cascades
import BuddySystem.Proofs.Regions
import Mathlib.Data.List.Forall2

/-!
# What a dump shows

A dump is a text with one line for each order, and a line shows the bytes of the free blocks
of its order.  What such a text is made of is said here without the functions that put it
together: `WritesHex text n` that the text is a number in base sixteen, `ShowsBytes` that it
is the bytes of a block, `Allocator.ShowsOrder` that it is the line of an order, and
`Allocator.Dumps` that it is the whole dump.

Each function on the way to the text is told by what it yields and when (`Yields`).  The
address one past the last byte of a block is computed on the way to that byte.  It has to
fit into 64 bits, though nobody asks for it: a dump faults just when a listed block has no
such address (`Dumped.answers_iff`).  So it faults for a block that ends with the very last
of the addresses, all bytes of which can be addressed.  A page of no bytes has no last byte,
and there the subtraction faults.

By whole pages the bytes of a block are its frames (`Block.mem_addresses_iff`), and so the bytes in
a dump are disjoint and cover the free frames because the blocks are and do.

* `Dumped`, `dumped_of_history`: in a history over a new table.
-/

namespace BuddySystem

/-! ### Numbers in base sixteen -/

/-- The digits in base sixteen, each at the place of its value. -/
def hexAlphabet : List Char :=
  ['0', '1', '2', '3', '4', '5', '6', '7', '8', '9', 'a', 'b', 'c', 'd', 'e', 'f']

/-- The text is the number in base sixteen, in lower case and without leading zeros. -/
structure WritesHex (text : String) (n : Nat) : Prop where
  digits : ∀ c ∈ text.toList, c ∈ hexAlphabet
  value : text.toList.foldl (fun m c => 16 * m + hexAlphabet.idxOf c) 0 = n
  nonempty : text.toList ≠ []
  leading : text.toList.head? = some '0' → text.toList = ['0']

theorem digitChar_cases : ∀ d < 16, d.digitChar ∈ hexAlphabet ∧
    hexAlphabet.idxOf d.digitChar = d ∧ (d.digitChar = '0' → d = 0) := by
  decide

theorem writesHex_hexDigits (n : Nat) : WritesHex (hexDigits n) n := by
  unfold hexDigits
  induction n using Nat.strong_induction_on with
  | _ n ih =>
    by_cases hn : n < 16
    · obtain ⟨hmem, hvalue, hzero⟩ := digitChar_cases n hn
      rw [Nat.toDigits_of_lt_base hn]
      constructor
      · simp [hmem]
      · simp [hvalue]
      · simp
      · simp
    · obtain ⟨hmem, hvalue, _⟩ := digitChar_cases (n % 16) (Nat.mod_lt n (by decide))
      have hrest := ih (n / 16) (by omega)
      rw [Nat.toDigits_of_base_le (by decide) (Nat.le_of_not_lt hn)]
      obtain ⟨hdigits, hfold, hne, hlead⟩ := hrest
      rw [String.toList_ofList] at hdigits hfold hne hlead
      constructor
      · intro c hc
        rw [String.toList_ofList, List.mem_append, List.mem_singleton] at hc
        rcases hc with hc | rfl
        · exact hdigits c hc
        · exact hmem
      · rw [String.toList_ofList, List.foldl_append, hfold]
        simp only [List.foldl_cons, List.foldl_nil, hvalue]
        omega
      · simp
      · intro hhead
        rw [String.toList_ofList, List.head?_append_of_ne_nil _ hne] at hhead
        rw [hlead hhead] at hfold
        have hzero : n / 16 = 0 := by rw [← hfold]; decide
        omega

/-! ### Computing one thing after another -/

/-- The computation comes to `a` if `p` holds, and to a fault if not. -/
def Yields {α : Type} (x : Except Fault α) (p : Prop) (a : α) : Prop := ∀ b, x = .ok b ↔ p ∧ a = b

variable {α β : Type} {x : Except Fault α} {p q : Prop} {a : α} {b : β}

theorem Yields.bind {f : α → Except Fault β} (h : Yields x p a) (hf : Yields (f a) q b) :
    Yields (x >>= f) (p ∧ q) b := by
  intro c
  cases x with
  | error fault =>
    have hnot : ¬ p := fun hp => by simpa using (h a).mpr ⟨hp, rfl⟩
    simp [hnot, Bind.bind, Except.bind]
  | ok a' =>
    obtain ⟨hp, rfl⟩ := (h a').mp rfl
    have hvalue : f a = .ok c ↔ q ∧ b = c := hf c
    simp [hp, Bind.bind, Except.bind, hvalue]

theorem Yields.map (h : Yields x p a) (g : α → β) : Yields (x >>= fun a => pure (g a)) p (g a) := by
  have hpure : Yields (pure (g a)) True (g a) := by
    intro c
    simp [pure, Except.pure]
  intro c
  rw [h.bind hpure c, and_true]

theorem yields_mapM {f : α → Except Fault β} {p : α → Prop} {g : α → β}
    (hf : ∀ x, Yields (f x) (p x) (g x)) (xs : List α) :
    Yields (xs.mapM f) (∀ x ∈ xs, p x) (xs.map g) := by
  induction xs with
  | nil =>
    intro ys
    simp [pure, Except.pure]
  | cons x xs ih =>
    rw [List.mapM_cons, List.forall_mem_cons]
    exact (hf x).bind (ih.map _)

theorem Word.yields_add (m n : Nat) : Yields (add m n) (m + n < limit) (m + n) := by
  intro k
  rw [add_eq_ok_iff]
  grind

theorem Word.yields_sub (m n : Nat) : Yields (sub m n) (n ≤ m) (m - n) :=
  fun _ => sub_eq_ok_iff

theorem Word.yields_mul (m n : Nat) : Yields (mul m n) (m * n < limit) (m * n) := by
  intro k
  rw [mul_eq_ok_iff]
  grind

theorem foldl_append_eq (xs : List α) (text : α → String) (start mark : String) :
    xs.foldl (fun line x => line ++ text x ++ mark) start =
      start ++ String.join (xs.map fun x => text x ++ mark) := by
  induction xs generalizing start with
  | nil => simp
  | cons x xs ih =>
    rw [List.foldl_cons, ih, List.map_cons, String.join_cons]
    simp only [String.append_assoc]

/-! ### The bytes of a block -/

theorem Registry.yields_baseAddress (r : Registry) (pfn : Nat) :
    Yields (r.baseAddress pfn) (pfn * r.pageSize < Word.limit) (pfn * r.pageSize) :=
  Word.yields_mul pfn r.pageSize

/-- The addresses from the first to the last one. -/
def ByteRange.addresses (range : ByteRange) : Finset Nat := Finset.Icc range.first range.last

namespace Block

variable {pageSize address : Nat} {b : Block}

/-- One past the address of the last byte. -/
def stopAddress (pageSize : Nat) (b : Block) : Nat := (b.pfn + b.size) * pageSize

/-- The address past the last byte is a positive number of 64 bits. -/
def HasStop (pageSize : Nat) (b : Block) : Prop :=
  0 < b.stopAddress pageSize ∧ b.stopAddress pageSize < Word.limit

/-- The addresses of the first and the last byte. -/
def bytes (pageSize : Nat) (b : Block) : ByteRange :=
  ⟨b.pfn * pageSize, b.stopAddress pageSize - 1⟩

/-- **The bytes of a block are found just when there is an address past them.** -/
theorem yields_byteRange (r : Registry) (b : Block) :
    Yields (b.byteRange r) (b.HasStop r.pageSize) (b.bytes r.pageSize) := by
  have hsum : b.stopAddress r.pageSize = b.pfn * r.pageSize + b.size * r.pageSize :=
    Nat.add_mul _ _ _
  have hsteps : Yields (b.byteRange r)
      (b.pfn * r.pageSize < Word.limit ∧ b.size * r.pageSize < Word.limit ∧
        b.stopAddress r.pageSize < Word.limit ∧ 0 < b.stopAddress r.pageSize)
      (b.bytes r.pageSize) := by
    rw [bytes, hsum]
    refine (r.yields_baseAddress _).bind ?_
    refine (Word.yields_mul _ _).bind ((Word.yields_add _ _).bind ?_)
    exact (Word.yields_sub _ 1).map _
  intro range
  rw [hsteps range, HasStop]
  -- No other product on the way is larger than the address past the bytes.
  refine and_congr_left fun _ => ?_
  omega

/-- **By whole pages the bytes of a block are its frames.** -/
theorem mem_addresses_iff (hpage : 0 < pageSize) :
    address ∈ (b.bytes pageSize).addresses ↔ address / pageSize ∈ b.frames := by
  have hpos : 0 < b.stopAddress pageSize :=
    Nat.mul_pos (Nat.lt_of_lt_of_le b.size_pos (Nat.le_add_left _ _)) hpage
  rw [ByteRange.addresses, Finset.mem_Icc, mem_frames, Nat.le_div_iff_mul_le hpage,
    Nat.div_lt_iff_lt_mul hpage, bytes, ← stopAddress]
  simp only
  omega

end Block

/-! ### The text -/

/-- The text is a run of bytes: two addresses in base sixteen with two dashes between them, and a
blank. -/
def ShowsBytes (range : ByteRange) (text : String) : Prop :=
  ∃ first last, WritesHex first range.first ∧ WritesHex last range.last ∧
    text = first ++ "--" ++ last ++ " "

theorem showsBytes_text (range : ByteRange) : ShowsBytes range (range.text ++ " ") :=
  ⟨_, _, writesHex_hexDigits range.first, writesHex_hexDigits range.last, rfl⟩

namespace Allocator

/-- The line is an order in two digits, and then the bytes of its blocks in the order of the
list. -/
def ShowsOrder (a : Allocator) (o : Nat) (line : String) : Prop :=
  ∃ entries, List.Forall₂
      (fun p entry => ShowsBytes (Block.bytes a.registry.pageSize ⟨p, o⟩) entry)
      (a.heads o) entries ∧
    line = (if o < 10 then "[0" else "[") ++ toString o ++ "] " ++ String.join entries

/-- The text is a title and then order after order, each on a line of its own. -/
def Dumps (a : Allocator) (text : String) : Prop :=
  ∃ lines, List.Forall₂ a.ShowsOrder (List.range (a.lastOrder + 1)) lines ∧
    text = String.join ((dumpTitle :: lines).map fun line => line ++ "\n")

variable {a a₀ : Allocator} {B : Finset Block} {log : List Exchange} {o : Nat} {text : String}

/-- The bytes of the blocks of one order. -/
def blockBytes (a : Allocator) (o : Nat) : List ByteRange :=
  (a.heads o).map fun p => Block.bytes a.registry.pageSize ⟨p, o⟩

theorem yields_byteRanges (a : Allocator) (o : Nat) :
    Yields (a.byteRanges o) (∀ p ∈ a.heads o, Block.HasStop a.registry.pageSize ⟨p, o⟩)
      (a.blockBytes o) :=
  yields_mapM (fun p => Block.yields_byteRange a.registry ⟨p, o⟩) _

/-- **All lines are there, or none is.** -/
theorem yields_dump (a : Allocator) :
    Yields a.dump
      (∀ o ∈ List.range (a.lastOrder + 1), ∀ p ∈ a.heads o,
        Block.HasStop a.registry.pageSize ⟨p, o⟩)
      (String.join ((dumpTitle :: (List.range (a.lastOrder + 1)).map fun o =>
        dumpLine o (a.blockBytes o)).map fun line => line ++ "\n")) := by
  have hlines := yields_mapM (fun o => (a.yields_byteRanges o).map (dumpLine o))
    (List.range (a.lastOrder + 1))
  have hdump := (hlines.map (dumpTitle :: ·)).map
    fun lines => lines.foldl (fun text line => text ++ line ++ "\n") ""
  rw [foldl_append_eq _ fun line => line, String.empty_append] at hdump
  exact hdump

theorem showsOrder_dumpLine (a : Allocator) (o : Nat) :
    a.ShowsOrder o (dumpLine o (a.blockBytes o)) := by
  refine ⟨(a.blockBytes o).map fun range => range.text ++ " ", ?_, ?_⟩
  · rw [blockBytes, List.map_map, List.forall₂_map_right_iff, List.forall₂_same]
    exact fun p _ => showsBytes_text _
  · rw [dumpLine, foldl_append_eq]
    split <;> rfl

theorem dumps_of_dump (h : a.dump = .ok text) : a.Dumps text := by
  obtain ⟨_, htext⟩ := (a.yields_dump text).mp h
  refine ⟨_, ?_, htext.symm⟩
  rw [List.forall₂_map_right_iff, List.forall₂_same]
  exact fun o _ => a.showsOrder_dumpLine o

/-! ### The bytes of free frames -/

/-- The text shows all lists, and their blocks hold each byte of the free frames once and no other
byte. -/
structure ShowsFree (a : Allocator) (text : String) : Prop where
  dumps : a.Dumps text
  ascending : ∀ o, (a.heads o).Pairwise (· < ·)
  disjoint : ∀ o, ∀ p ∈ a.heads o, ∀ o', ∀ p' ∈ a.heads o', (⟨p, o⟩ : Block) ≠ ⟨p', o'⟩ →
    Disjoint (Block.bytes a.registry.pageSize ⟨p, o⟩).addresses
      (Block.bytes a.registry.pageSize ⟨p', o'⟩).addresses
  covers : ∀ address,
    (∃ o, ∃ p ∈ a.heads o, address ∈ (Block.bytes a.registry.pageSize ⟨p, o⟩).addresses) ↔
      ∃ f ∈ a.registry.freeFrames, address ∈ frameBytes a.registry.pageSize f

/-- What comes of a request for a dump. -/
structure Dumped (a : Allocator) (value : Except Fault Reply) : Prop where
  answers_iff : (∃ text, value = .ok (.text text)) ↔
    ∀ o, ∀ p ∈ a.heads o, Block.HasStop a.registry.pageSize ⟨p, o⟩
  /-- If every byte of the registry has an address, then only a block that ends with the last of
  all addresses is in the way. -/
  answers : 0 < a.registry.pageSize →
    (a.base + a.registry.frameCount) * a.registry.pageSize ≤ Word.limit →
    (∀ o, ∀ p ∈ a.heads o, Block.stopAddress a.registry.pageSize ⟨p, o⟩ ≠ Word.limit) →
    ∃ text, value = .ok (.text text)
  shows : ∀ text, value = .ok (.text text) → a.ShowsFree text

theorem perform_dump_iff (v : Verbosity) :
    (perform .dump v a).value = .ok (.text text) ↔ a.dump = .ok text := by
  have hvalue : (perform .dump v a).value = a.dump.map Reply.text := by
    rw [perform, map_eq_pure_bind, Op.bind_apply, Op.compute]
    cases a.dump <;> rfl
  rw [hvalue]
  cases a.dump <;> simp [Except.map]

theorem Complete.mem_freeFrames_iff (hB : a.Complete B) {f : Nat} :
    f ∈ a.registry.freeFrames ↔ ∃ o, ∃ p ∈ a.heads o, f ∈ (⟨p, o⟩ : Block).frames := by
  rw [show a.registry.freeFrames = covered B from hB.free, mem_covered]
  constructor
  · intro ⟨b, hb, hf⟩
    exact ⟨b.order, b.pfn, hB.mem_heads_iff.mpr hb, hf⟩
  · intro ⟨o, p, hp, hf⟩
    exact ⟨⟨p, o⟩, hB.mem_heads_iff.mp hp, hf⟩

/-- Every block that is listed is on a line. -/
theorem Complete.exists_dump_iff (hB : a.Complete B) :
    (∃ text, a.dump = .ok text) ↔
      ∀ o, ∀ p ∈ a.heads o, Block.HasStop a.registry.pageSize ⟨p, o⟩ := by
  simp only [a.yields_dump _, exists_and_left, exists_eq', and_true, List.mem_range]
  constructor
  · intro hstop o p hp
    have ho : o ≤ a.lastOrder := hB.keeps.sound.order_le ⟨p, o⟩ (hB.mem_heads_iff.mp hp)
    exact hstop o (Nat.lt_succ_of_le ho) p hp
  · intro hstop o _ p hp
    exact hstop o p hp

/-- **A dump shows each byte of the free frames once.** -/
theorem Complete.showsFree (hB : a.Complete B) (h : a.dump = .ok text) : a.ShowsFree text := by
  have horderly := hB.keeps.orderly hB.sighted
  have hstop := hB.exists_dump_iff.mp ⟨text, h⟩
  -- Where anything is shown at all, pages have bytes.
  have hpage : ∀ {o p}, p ∈ a.heads o → 0 < a.registry.pageSize := by
    intro o p hp
    exact Nat.pos_of_mul_pos_left (hstop o p hp).1
  constructor
  · exact dumps_of_dump h
  · exact horderly.ascending
  · intro o p hp o' p' hp' hne
    rw [Finset.disjoint_left]
    intro address haddress haddress'
    rw [Block.mem_addresses_iff (hpage hp)] at haddress haddress'
    exact Finset.disjoint_left.mp (horderly.disjoint o p hp o' p' hp' hne) haddress haddress'
  · intro address
    constructor
    · intro ⟨o, p, hp, haddress⟩
      rw [Block.mem_addresses_iff (hpage hp)] at haddress
      exact ⟨_, hB.mem_freeFrames_iff.mpr ⟨o, p, hp, haddress⟩,
        (mem_frameBytes_iff (hpage hp)).mpr rfl⟩
    · intro ⟨f, hf, haddress⟩
      obtain ⟨o, p, hp, hfp⟩ := hB.mem_freeFrames_iff.mp hf
      rw [mem_frameBytes_iff (hpage hp)] at haddress
      refine ⟨o, p, hp, ?_⟩
      rw [Block.mem_addresses_iff (hpage hp), haddress]
      exact hfp

/-- **A dump faults just when there is no address past the bytes of a listed block**; else it shows
each byte of the free frames once. -/
theorem dumped_of_history (hfresh : a₀.Fresh) (h : History a₀ log a) (hanswered : Answered log)
    (v : Verbosity) : Dumped a (perform .dump v a).value := by
  obtain ⟨B, hB⟩ := complete_of_history hfresh h fun e he _ _ _ => hanswered e he
  have horderly := hB.keeps.orderly hB.sighted
  have hanswers : (∃ text, (perform .dump v a).value = .ok (.text text)) ↔
      ∀ o, ∀ p ∈ a.heads o, Block.HasStop a.registry.pageSize ⟨p, o⟩ := by
    simp only [perform_dump_iff]
    exact hB.exists_dump_iff
  refine ⟨hanswers, ?_, fun text htext => hB.showsFree ((perform_dump_iff v).mp htext)⟩
  intro hpage hfits hnot
  rw [hanswers]
  intro o p hp
  have hinside := Nat.mul_le_mul_right a.registry.pageSize (horderly.inside o p hp)
  have hpos : 0 < (p + 2 ^ o) * a.registry.pageSize :=
    Nat.mul_pos (Nat.lt_of_lt_of_le (Nat.two_pow_pos o) (Nat.le_add_left _ _)) hpage
  exact ⟨hpos, Nat.lt_of_le_of_ne (hinside.trans hfits) (hnot o p hp)⟩

/-- Frames 3 to 8 are free but for frame 7. -/
theorem dumped_after_split :
    ∃ a₀ log a, a₀.Fresh ∧ History a₀ log a ∧ Answered log ∧
      Dumped a (perform .dump none a).value ∧
      (perform .dump none a).value = .ok (.text ("*** buddy page allocator - free list ***\n" ++
        "[00] 8000--8fff \n" ++ "[01] \n" ++ "[02] 3000--6fff \n")) := by
  have hrun : ∃ a₀ log a, Fresh a₀ ∧ History a₀ log a ∧ Answered log ∧
      (perform .dump none a).value = .ok (.text ("*** buddy page allocator - free list ***\n" ++
        "[00] 8000--8fff \n" ++ "[01] \n" ++ "[02] 3000--6fff \n")) := by
    refine ⟨_, _, _, ⟨4096, 3, 8, 2, _, rfl, rfl⟩,
      .call none (.allocate 0 Hints.empty) (.call none (.insert 3 6) .start), ?_⟩
    decide +kernel
  obtain ⟨a₀, log, a, hfresh, h, hanswered, htext⟩ := hrun
  exact ⟨a₀, log, a, hfresh, h, hanswered, dumped_of_history hfresh h hanswered none, htext⟩

/-- The last page of all addresses is free, and each of its bytes has an address, but the dump faults
over the address past them. -/
theorem not_dumped_at_top :
    ∃ a₀ log a, a₀.Fresh ∧ History a₀ log a ∧ Answered log ∧
      (a.base + a.registry.frameCount) * a.registry.pageSize ≤ Word.limit ∧
      a.heads 0 = [2 ^ 52 - 1] ∧
      Block.bytes a.registry.pageSize ⟨2 ^ 52 - 1, 0⟩ = ⟨2 ^ 64 - 4096, 2 ^ 64 - 1⟩ ∧
      (perform .dump none a).value = .error (.overflow .addition) := by
  refine ⟨_, _, _, ⟨4096, 2 ^ 52 - 1, 1, 0, _, rfl, rfl⟩,
    .call none (.insert (2 ^ 52 - 1) 1) .start, ?_⟩
  decide +kernel

end Allocator

end BuddySystem
