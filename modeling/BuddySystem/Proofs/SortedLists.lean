import BuddySystem.Proofs.Chain
import Mathlib.Data.List.Sort

/-!
# Lists as sorted sets

A list that spells an ascending sequence of frames, all of which can be reached, stands
for the set of these frames (`Threaded.Represents`).  The search for a frame then comes
to the frame itself or to the gap where it belongs, and to nothing else
(`Represents.position`): no link leads out of sight, and the budget of the search never
ends it.

So each operation on the list is the operation on the set (`Threaded.ActsAsSet`).  What it
writes are links of the frames in the list and of the frame that comes or goes, so other
lists over the same registry stand for the sets that they stood for before, unless they
have a frame in common with this one (`Threaded.LeavesOthers`).

* `contains_of_linked`, `insert_of_gap`, `remove_of_linked` and so on: what an operation
  does once the search has ended, over any list and any registry.
* `acts_as_set`: the operations on a list that stands for a set.
-/

namespace BuddySystem

/-! ### After the search -/

namespace FreeList

variable {t : Threaded} {pfn : Nat} {prev next : Option Nat} {v : Verbosity}

theorem contains_of_linked (h : t.locate pfn = .linked prev) :
    contains pfn v t = ⟨.ok true, t, []⟩ := by
  rw [contains, Op.query_bind, h]
  rfl

theorem contains_of_gap (h : t.locate pfn = .gap prev next) :
    contains pfn v t = ⟨.ok false, t, []⟩ := by
  rw [contains, Op.query_bind, h]
  rfl

theorem insert_of_linked (h : t.locate pfn = .linked prev) :
    insert pfn v t = ⟨.ok false, t, []⟩ := by
  rw [insert, Op.query_bind, h]
  rfl

theorem insert_of_missing (h : t.locate pfn = .gap prev next)
    (hpfn : t.registry.has pfn = false) : insert pfn v t = ⟨.ok false, t, []⟩ := by
  rw [insert, Op.query_bind, h]
  dsimp only
  rw [Op.query_bind, if_neg (Bool.eq_false_iff.mp hpfn)]
  rfl

theorem insert_of_gap (h : t.locate pfn = .gap prev next) (hpfn : t.registry.has pfn = true)
    (hlen : t.list.len + 1 < Word.limit) :
    insert pfn v t = ⟨.ok true, (t.link pfn prev next).setLen (t.list.len + 1), []⟩ := by
  have hadd : Word.add (t.link pfn prev next).list.len 1 = .ok (t.list.len + 1) := by
    rw [Threaded.link, Threaded.len_relink]
    exact Word.add_eq_ok_iff.mpr ⟨rfl, hlen⟩
  rw [insert, Op.query_bind, h]
  dsimp only
  rw [Op.query_bind, if_pos hpfn, Op.modify_bind]
  exact Op.compute_bind_of_ok (f := fun t : Threaded => Word.add t.list.len 1) hadd _ v

theorem remove_of_gap (h : t.locate pfn = .gap prev next) :
    remove pfn v t = ⟨.ok false, t, []⟩ := by
  rw [remove, Op.query_bind, h]
  rfl

theorem remove_of_linked (h : t.locate pfn = .linked prev) (hpfn : t.registry.has pfn = true)
    (hlen : 0 < t.list.len) :
    remove pfn v t = ⟨.ok true, (t.unlink pfn prev).setLen (t.list.len - 1), []⟩ := by
  have hsub : Word.sub (t.unlink pfn prev).list.len 1 = .ok (t.list.len - 1) := by
    rw [Threaded.unlink, Threaded.len_relink]
    exact Word.sub_eq_ok_iff.mpr ⟨hlen, rfl⟩
  rw [remove, Op.query_bind, h]
  dsimp only
  rw [Op.query_bind, if_pos hpfn, Op.modify_bind]
  exact Op.compute_bind_of_ok (f := fun t : Threaded => Word.sub t.list.len 1) hsub _ v

end FreeList

namespace Threaded

/-- The list stands for the set of the frames in `xs`: from its head the links lead through the
ascending sequence `xs` to their end, all descriptors can be reached, and the length is right. -/
structure Represents (t : Threaded) (xs : List Nat) : Prop where
  leads : Leads t.registry.next? t.list.head xs none
  ascending : xs.Pairwise (· < ·)
  present : ∀ x ∈ xs, t.registry.has x = true
  len : t.list.len = xs.length

/-- States and numbers of frames are the same, and so are the sets that other lists stand for, as
long as these have no frame in common with `frames`. -/
structure LeavesOthers (frames : List Nat) (t t' : Threaded) : Prop where
  state : ∀ q, (t'.registry.page? q).map Page.state = (t.registry.page? q).map Page.state
  pfn : ∀ q, (t'.registry.page? q).map Page.pfn = (t.registry.page? q).map Page.pfn
  others : ∀ (l : FreeList) (ys : List Nat), (⟨l, t.registry⟩ : Threaded).Represents ys →
    (∀ y ∈ ys, y ∉ frames) → (⟨l, t'.registry⟩ : Threaded).Represents ys

/-- What can be done with a list is what can be done with the set of the frames in `xs`.  Every
operation answers, and none of them has anything to log. -/
structure ActsAsSet (t : Threaded) (xs : List Nat) (pfn : Nat) (v : Verbosity) : Prop where
  contains : FreeList.contains pfn v t = ⟨.ok (decide (pfn ∈ xs)), t, []⟩
  inserted : pfn ∉ xs → t.registry.has pfn = true →
    ∃ t', FreeList.insert pfn v t = ⟨.ok true, t', []⟩ ∧
      t'.Represents (xs.orderedInsert (· ≤ ·) pfn) ∧ LeavesOthers (pfn :: xs) t t'
  /-- A frame that is there already, or has no descriptor, is refused. -/
  notInserted : pfn ∈ xs ∨ t.registry.has pfn = false →
    FreeList.insert pfn v t = ⟨.ok false, t, []⟩
  removed : pfn ∈ xs →
    ∃ t', FreeList.remove pfn v t = ⟨.ok true, t', []⟩ ∧ t'.Represents (xs.erase pfn) ∧
      t'.registry.next? pfn = none ∧ LeavesOthers xs t t'
  notRemoved : pfn ∉ xs → FreeList.remove pfn v t = ⟨.ok false, t, []⟩
  /-- The budget of a search does not run out. -/
  noCycle : t.locate pfn ≠ .cycle
  headsUpTo : ∀ budget, t.list.headsUpTo budget t.registry = xs.take budget
  heads : t.list.heads t.registry = xs
  head : t.list.head = xs.min?
  isEmpty : t.list.isEmpty = true ↔ xs = []

variable {t t' : Threaded} {xs frames : List Nat} {pfn : Nat}

/-! ### What a list stands for -/

theorem represents_iff :
    t.Represents xs ↔ t.Spells xs ∧ ∀ x ∈ xs, t.registry.has x = true := by
  constructor
  · intro h
    refine ⟨⟨?_, h.ascending, h.len⟩, h.present⟩
    exact (leads_congr fun x hx => (Registry.next?_of_has (h.present x hx)).symm).mpr h.leads
  · intro ⟨h, hpresent⟩
    exact ⟨Registry.leads_next? h.leads hpresent, h.ascending, hpresent, h.len⟩

theorem Represents.spells (h : t.Represents xs) : t.Spells xs := (represents_iff.mp h).1

end Threaded

/-- There are no more frames that can be reached than there are frames. -/
theorem Registry.length_le_frameCount {r : Registry} {xs : List Nat} (hxs : xs.Nodup)
    (hpresent : ∀ x ∈ xs, r.has x = true) : xs.length ≤ r.frameCount := by
  have hsub : xs.toFinset ⊆ r.run := by
    intro x hx
    exact (Registry.has_iff.mp (hpresent x (List.mem_toFinset.mp hx))).1
  have hcard := Finset.card_le_card hsub
  rw [List.toFinset_card_of_nodup hxs, Registry.run, Nat.card_Ico] at hcard
  omega

namespace Threaded

variable {t t' : Threaded} {xs frames : List Nat} {pfn : Nat}

/-- **The search comes to the frame or to the gap where it belongs.** -/
theorem Represents.position (h : t.Represents xs) (pfn : Nat) :
    (∃ before after, xs = before ++ pfn :: after ∧ t.locate pfn = .linked before.getLast?) ∨
      ∃ before after, xs = before ++ after ∧ (∀ x ∈ before, x < pfn) ∧ (∀ x ∈ after, pfn < x) ∧
        t.locate pfn = .gap before.getLast? after.head? := by
  have hlocated := h.spells.located pfn
  generalize t.locate pfn = position at hlocated
  cases hlocated with
  | linked before after he _ => exact Or.inl ⟨before, after, he, by rw [Option.or_none]⟩
  | gap before after he _ hlt hgt =>
    exact Or.inr ⟨before, after, he, hlt, hgt, by rw [Option.or_none]⟩
  | broken hx _ hmissing =>
    rw [h.present _ hx] at hmissing
    cases hmissing

theorem Represents.locate_ne_cycle (h : t.Represents xs) (pfn : Nat) : t.locate pfn ≠ .cycle := by
  rcases h.position pfn with ⟨_, _, _, he⟩ | ⟨_, _, _, _, _, he⟩ <;> simp [he]

/-! ### What other lists stand for -/

theorem Relinks.has_eq (h : Relinks frames t t') (q : Nat) :
    t'.registry.has q = t.registry.has q := by
  have hrun : t'.registry.run = t.registry.run :=
    congrArg (fun S : Survey => Finset.Ico S.base (S.base + S.frameCount)) h.survey
  have hhidden : t'.registry.hidden = t.registry.hidden := congrArg Survey.hidden h.survey
  rw [Bool.eq_iff_iff, Registry.has_iff, Registry.has_iff, hrun, hhidden]

/-- **Where only links of some frames are written, lists of other frames stay what they are.** -/
theorem Relinks.leavesOthers (h : Relinks frames t t') : LeavesOthers frames t t' := by
  constructor
  · intro q
    have hfree : t'.registry.freeFrames = t.registry.freeFrames := congrArg Survey.free h.survey
    rw [Registry.map_state_page?, Registry.map_state_page?, h.has_eq, hfree]
  · intro q
    have hhidden : t'.registry.hidden = t.registry.hidden := congrArg Survey.hidden h.survey
    have hpfns : t'.registry.pfns q = t.registry.pfns q :=
      congrFun (congrArg Survey.pfns h.survey) q
    rw [Registry.page?, Registry.page?, hhidden]
    cases t.registry.hidden q with
    | true => rfl
    | false => exact hpfns
  · intro l ys hys hdisj
    obtain ⟨hspells, hpresent⟩ := represents_iff.mp hys
    refine represents_iff.mpr ⟨hspells.congr rfl fun y hy => h.link y (hdisj y hy), ?_⟩
    intro y hy
    exact (h.has_eq y).trans (hpresent y hy)

/-! ### The operations -/

theorem not_mem_of_gap {before after : List Nat} (hlt : ∀ x ∈ before, x < pfn)
    (hgt : ∀ x ∈ after, pfn < x) : pfn ∉ before ++ after := by
  intro hm
  rcases List.mem_append.mp hm with hm | hm
  · exact Nat.lt_irrefl _ (hlt pfn hm)
  · exact Nat.lt_irrefl _ (hgt pfn hm)

theorem orderedInsert_append {before after : List Nat} (hlt : ∀ x ∈ before, x < pfn)
    (hgt : ∀ x ∈ after, pfn < x) :
    (before ++ after).orderedInsert (· ≤ ·) pfn = before ++ pfn :: after := by
  induction before with
  | nil =>
    cases after with
    | nil => rfl
    | cons x after => exact if_pos (Nat.le_of_lt (hgt x List.mem_cons_self))
  | cons x before ih =>
    obtain ⟨hx, hlt⟩ := List.forall_mem_cons.mp hlt
    rw [List.cons_append, List.orderedInsert_cons, if_neg (Nat.not_le.mpr hx), ih hlt]
    rfl

theorem Represents.contains_eq (h : t.Represents xs) (v : Verbosity) :
    FreeList.contains pfn v t = ⟨.ok (decide (pfn ∈ xs)), t, []⟩ := by
  rcases h.position pfn with ⟨before, after, rfl, hloc⟩ | ⟨before, after, rfl, hlt, hgt, hloc⟩
  · rw [FreeList.contains_of_linked hloc, decide_eq_true]
    simp
  · rw [FreeList.contains_of_gap hloc, decide_eq_false (not_mem_of_gap hlt hgt)]

/-- **A new frame with a descriptor comes in at its place.** -/
theorem Represents.insert_eq (h : t.Represents xs) (hpfn : pfn ∉ xs)
    (hhas : t.registry.has pfn = true) (v : Verbosity) :
    ∃ t', FreeList.insert pfn v t = ⟨.ok true, t', []⟩ ∧
      t'.Represents (xs.orderedInsert (· ≤ ·) pfn) ∧ Relinks (pfn :: xs) t t' := by
  have hlen : (pfn :: xs).length ≤ t.registry.frameCount :=
    Registry.length_le_frameCount (List.nodup_cons.mpr ⟨hpfn, h.spells.nodup⟩)
      (List.forall_mem_cons.mpr ⟨hhas, h.present⟩)
  rw [List.length_cons] at hlen
  have hlimit := t.registry.base_add_frameCount_lt
  rcases h.position pfn with ⟨before, after, rfl, _⟩ | ⟨before, after, rfl, hlt, hgt, hloc⟩
  · exact absurd (by simp) hpfn
  have hbefore : ∀ x ∈ before, t.registry.has x = true := fun x hx =>
    h.present x (List.mem_append_left _ hx)
  obtain ⟨hspells, hrelinks⟩ := link_spells h.spells hbefore hhas hlt hgt
  refine ⟨_, FreeList.insert_of_gap hloc hhas ?_, ?_, hrelinks⟩
  · rw [h.len]
    omega
  · rw [orderedInsert_append hlt hgt]
    refine represents_iff.mpr ⟨hspells, fun x hx => ?_⟩
    rw [hrelinks.has_eq]
    rcases List.mem_append.mp hx with hx | hx
    · exact hbefore x hx
    rcases List.mem_cons.mp hx with rfl | hx
    · exact hhas
    · exact h.present x (List.mem_append_right _ hx)

/-- **A frame of the list goes out**, and its link is cleared. -/
theorem Represents.remove_eq (h : t.Represents xs) (hpfn : pfn ∈ xs) (v : Verbosity) :
    ∃ t', FreeList.remove pfn v t = ⟨.ok true, t', []⟩ ∧ t'.Represents (xs.erase pfn) ∧
      t'.registry.next? pfn = none ∧ Relinks xs t t' := by
  have hhas := h.present pfn hpfn
  rcases h.position pfn with ⟨before, after, rfl, hloc⟩ | ⟨before, after, rfl, hlt, hgt, _⟩
  swap
  · exact absurd hpfn (not_mem_of_gap hlt hgt)
  have hbefore : ∀ x ∈ before, t.registry.has x = true := fun x hx =>
    h.present x (List.mem_append_left _ hx)
  have hnew : pfn ∉ before := by
    intro hm
    have hnodup := List.nodup_append.mp h.spells.nodup
    exact hnodup.2.2 pfn hm pfn List.mem_cons_self rfl
  obtain ⟨hspells, hrelinks, hlink⟩ := unlink_spells h.spells hbefore hhas
  refine ⟨_, FreeList.remove_of_linked hloc hhas ?_, ?_, ?_, hrelinks⟩
  · rw [h.len, List.length_append, List.length_cons]
    omega
  · rw [List.erase_append_right _ hnew, List.erase_cons_head]
    refine represents_iff.mpr ⟨hspells, fun x hx => ?_⟩
    rw [hrelinks.has_eq]
    apply h.present
    rcases List.mem_append.mp hx with hx | hx
    · exact List.mem_append_left _ hx
    · exact List.mem_append_right _ (List.mem_cons_of_mem _ hx)
  · rw [Registry.next?_of_has ((hrelinks.has_eq pfn).trans hhas)]
    exact hlink

/-- **The operations on a list that stands for a set are those on the set.** -/
theorem acts_as_set (h : t.Represents xs) (pfn : Nat) (v : Verbosity) :
    ActsAsSet t xs pfn v := by
  have hhead : xs.head? = t.list.head := h.leads.head?_eq
  constructor
  · exact h.contains_eq v
  · intro hpfn hhas
    obtain ⟨t', hinsert, hrepresents, hrelinks⟩ := h.insert_eq hpfn hhas v
    exact ⟨t', hinsert, hrepresents, hrelinks.leavesOthers⟩
  · intro hrefused
    rcases h.position pfn with ⟨_, _, _, hloc⟩ | ⟨before, after, rfl, hlt, hgt, hloc⟩
    · exact FreeList.insert_of_linked hloc
    · exact FreeList.insert_of_missing hloc (hrefused.resolve_left (not_mem_of_gap hlt hgt))
  · intro hpfn
    obtain ⟨t', hremove, hrepresents, hlink, hrelinks⟩ := h.remove_eq hpfn v
    exact ⟨t', hremove, hrepresents, hlink, hrelinks.leavesOthers⟩
  · intro hpfn
    rcases h.position pfn with ⟨_, _, rfl, _⟩ | ⟨_, _, _, _, _, hloc⟩
    · exact absurd (by simp) hpfn
    · exact FreeList.remove_of_gap hloc
  · exact h.locate_ne_cycle pfn
  · exact Registry.chain_eq_take h.leads
  · refine Registry.chain_eq_of_leads h.leads (Nat.le_succ_of_le ?_)
    exact Registry.length_le_frameCount h.spells.nodup h.present
  · rw [← hhead, List.min?_eq_head?]
    exact h.ascending.imp fun hlt => Nat.min_eq_left (Nat.le_of_lt hlt)
  · rw [FreeList.isEmpty, Option.isNone_iff_eq_none, ← hhead, List.head?_eq_none_iff]

/-- A list of two frames, one that comes in between, and another list around them.  The descriptor
of a third frame is hidden. -/
theorem acts_as_set_beside_other_list :
    ∃ (t : Threaded) (other : FreeList), t.Represents [4, 7] ∧
      (⟨other, t.registry⟩ : Threaded).Represents [3, 9] ∧ t.registry.has 6 = false ∧
      ActsAsSet t [4, 7] 5 none ∧ ActsAsSet t [4, 7] 6 none ∧
      ∃ t', FreeList.insert 5 none t = ⟨.ok true, t', []⟩ ∧ t'.Represents [4, 5, 7] ∧
        (⟨other, t'.registry⟩ : Threaded).Represents [3, 9] := by
  let link : Nat → Option Nat := fun f => if f = 4 then some 7 else if f = 3 then some 9 else none
  let pages : Array Page := Array.ofFn fun i : Fin 8 => ⟨i, .allocated, link (3 + i)⟩
  let registry : Registry := (Registry.ofTable ⟨3, pages, 4096, by decide⟩).hide (· == 6)
  have ht : (⟨⟨some 4, 2⟩, registry⟩ : Threaded).Represents [4, 7] :=
    ⟨⟨rfl, rfl, rfl⟩, by decide, by decide, rfl⟩
  have hother : (⟨⟨some 3, 2⟩, registry⟩ : Threaded).Represents [3, 9] :=
    ⟨⟨rfl, rfl, rfl⟩, by decide, by decide, rfl⟩
  have hacts := acts_as_set ht 5 none
  obtain ⟨t', hinsert, hrepresents, hothers⟩ := hacts.inserted (by decide) (by decide)
  exact ⟨_, _, ht, hother, by decide, hacts, acts_as_set ht 6 none, t', hinsert, hrepresents,
    hothers.others _ _ hother (by decide)⟩

end Threaded

end BuddySystem
