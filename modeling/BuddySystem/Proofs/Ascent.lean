import BuddySystem.Proofs.Searches

/-!
# Links always ascend

Lists and registries can be mixed in any way: any list can be used with any registry, so
several lists can run through one frame, a list can be continued by the links of another
one, and its length need not say how long it is (`Pool`).  Only one thing is left of the
order of the lists, and it is a thing about single links: each of them leads to a larger
frame (`Registry.LinksAscend`).

It is kept because of what a search passes on its way.  The frame before the place that it
comes to is smaller than the frame that it looks for, and the frame behind a gap is larger;
so the two links of a new frame ascend (`linksAscend_link`), and so does the link that takes the
place of those of a frame that goes (`linksAscend_unlink`).

Following ascending links one never comes back, and all frames but the last one have
descriptors.  So a list can be read to its end along the links of any registry, and no more
than one frame that is read is not one of the registry (`exists_heads`).

* `ascends_of_reaches`: the links after any use of any lists.
-/

namespace BuddySystem

namespace Registry

/-- Every link leads to a larger frame.  Hidden links count. -/
def LinksAscend (r : Registry) : Prop := ∀ p q, r.link? p = some q → p < q

variable {r : Registry} {pfn : Nat} {start next : Option Nat}

theorem LinksAscend.setNext (h : r.LinksAscend) (hpfn : r.has pfn = true)
    (hnext : ∀ q ∈ next, pfn < q) :
    (r.modify pfn (Page.setNext next)).LinksAscend := by
  intro p q hq
  rw [link?_modify_setNext hpfn] at hq
  by_cases hp : p = pfn
  · rw [if_pos hp] at hq
    rw [hp]
    exact hnext q hq
  · rw [if_neg hp] at hq
    exact h p q hq

theorem has_of_next? {q : Nat} (hq : r.next? pfn = some q) : r.has pfn = true := by
  rw [next?] at hq
  rw [has, Option.isSome_iff_ne_none]
  intro hnone
  simp [hnone] at hq

theorem LinksAscend.next_lt (h : r.LinksAscend) {q : Nat} (hq : r.next? pfn = some q) : pfn < q := by
  apply h
  rw [← next?_of_has (has_of_next? hq)]
  exact hq

/-! ### Reading a list off -/

@[simp] theorem chain_none (budget : Nat) : r.chain budget none = [] := by
  cases budget <;> rfl

/-- What is read within the budget is the whole of the list. -/
theorem leads_of_length_lt {budget : Nat} : (r.chain budget start).length < budget →
    Leads r.next? start (r.chain budget start) none := by
  fun_induction chain r budget start with
  | case1 => simp
  | case2 => exact fun _ => rfl
  | case3 budget p ih => exact fun h => ⟨rfl, ih (Nat.lt_of_succ_lt_succ h)⟩

/-- All frames that are read have descriptors, except perhaps the last one. -/
theorem has_of_mem_dropLast {budget : Nat} :
    ∀ x ∈ (r.chain budget start).dropLast, r.has x = true := by
  fun_induction chain r budget start with
  | case1 => simp
  | case2 => simp
  | case3 budget p ih =>
    intro x hx
    by_cases hrest : r.chain budget (r.next? p) = []
    · simp [hrest] at hx
    rw [List.dropLast_cons_of_ne_nil hrest, List.mem_cons] at hx
    rcases hx with rfl | hx
    · cases hnext : r.next? x with
      | none => simp [hnext] at hrest
      | some q => exact has_of_next? hnext
    · exact ih x hx

/-- No frame that is read is smaller than the first one. -/
theorem LinksAscend.le_of_mem_chain (h : r.LinksAscend) {budget : Nat} :
    ∀ x ∈ r.chain budget start, ∀ p ∈ start, p ≤ x := by
  fun_induction chain r budget start with
  | case1 => simp
  | case2 => simp
  | case3 budget p ih =>
    intro x hx p' hp'
    obtain rfl := Option.some.inj hp'
    rcases List.mem_cons.mp hx with rfl | hx
    · exact Nat.le_refl _
    cases hnext : r.next? p with
    | none => simp [hnext] at hx
    | some q => exact (Nat.le_of_lt (h.next_lt hnext)).trans (ih x hx q hnext)

theorem LinksAscend.chain_ascending (h : r.LinksAscend) {budget : Nat} :
    (r.chain budget start).Pairwise (· < ·) := by
  fun_induction chain r budget start with
  | case1 => exact .nil
  | case2 => exact .nil
  | case3 budget p ih =>
    refine List.pairwise_cons.mpr ⟨?_, ih⟩
    intro x hx
    cases hnext : r.next? p with
    | none => simp [hnext] at hx
    | some q => exact Nat.lt_of_lt_of_le (h.next_lt hnext) (h.le_of_mem_chain x hx q hnext)

/-- **Reading along ascending links comes to an end**, and at most one of the frames that are read
is not a frame of the registry. -/
theorem LinksAscend.exists_heads (h : r.LinksAscend) (l : FreeList) :
    ∃ xs, Leads r.next? l.head xs none ∧ xs.Pairwise (· < ·) ∧
      xs.length ≤ r.frameCount + 1 ∧ l.heads r = xs := by
  have hlen : ∀ budget, (r.chain budget l.head).length ≤ r.frameCount + 1 := by
    intro budget
    have hnodup : (r.chain budget l.head).Nodup := h.chain_ascending.imp Nat.ne_of_lt
    have hcount := length_le_frameCount (hnodup.sublist (List.dropLast_sublist _))
      has_of_mem_dropLast
    rw [List.length_dropLast] at hcount
    omega
  have hleads : Leads r.next? l.head (r.chain (r.frameCount + 2) l.head) none :=
    leads_of_length_lt (Nat.lt_succ_of_le (hlen _))
  exact ⟨_, hleads, h.chain_ascending, hlen _, chain_eq_of_leads hleads (hlen _)⟩

end Registry

namespace Threaded

variable {t : Threaded} {pfn : Nat} {prev next : Option Nat} {position : Position} {v : Verbosity}

/-! ### Writing links -/

theorem linksAscend_relink (h : t.registry.LinksAscend)
    (hprev : ∀ p ∈ prev, t.registry.has p = true ∧ ∀ q ∈ next, p < q) :
    (t.relink prev next).registry.LinksAscend := by
  cases prev with
  | none => exact h
  | some p => exact h.setNext (hprev p rfl).1 (hprev p rfl).2

/-- **The links of a new frame ascend.** -/
theorem linksAscend_link (h : t.registry.LinksAscend) (hpfn : t.registry.has pfn = true)
    (hloc : t.locate pfn = .gap prev next) : (t.link pfn prev next).registry.LinksAscend := by
  refine linksAscend_relink (h.setNext hpfn (next_of_locate hloc)) ?_
  intro p hp
  obtain ⟨hhas, hlt⟩ := prev_of_locate hloc p hp
  refine ⟨(Registry.has_modify _ _ _).trans hhas, ?_⟩
  intro q hq
  rw [← Option.some.inj hq]
  exact hlt

/-- **The link past a frame that goes ascends.** -/
theorem linksAscend_unlink (h : t.registry.LinksAscend) (hpfn : t.registry.has pfn = true)
    (hloc : t.locate pfn = .linked prev) : (t.unlink pfn prev).registry.LinksAscend := by
  refine linksAscend_relink (h.setNext hpfn (by simp)) ?_
  intro p hp
  obtain ⟨hhas, hlt⟩ := prev_of_locate hloc p hp
  refine ⟨(Registry.has_modify _ _ _).trans hhas, ?_⟩
  intro q hq
  exact hlt.trans (h.next_lt hq)

theorem linksAscend_insert (h : t.registry.LinksAscend) (pfn : Nat) (v : Verbosity) :
    (FreeList.insert pfn v t).state.registry.LinksAscend := by
  have hends : (FreeList.insert pfn).Ends v t (fun _ t' => t'.registry.LinksAscend)
      fun t' => t'.registry.LinksAscend := by
    refine FreeList.insert_outcome.mono ?_ ?_
    · intro yes t' hout
      rcases hout with ⟨_, prev, next, hloc, hpfn, rfl⟩ | ⟨_, rfl, _⟩
      · exact linksAscend_link h hpfn hloc
      · exact h
    · intro t' ⟨_, prev, next, hloc, hpfn, he⟩
      rw [he]
      exact linksAscend_link h hpfn hloc
  exact hends.state

theorem linksAscend_remove (h : t.registry.LinksAscend) (pfn : Nat) (v : Verbosity) :
    (FreeList.remove pfn v t).state.registry.LinksAscend := by
  have hends : (FreeList.remove pfn).Ends v t (fun _ t' => t'.registry.LinksAscend)
      fun t' => t'.registry.LinksAscend := by
    refine FreeList.remove_outcome.mono ?_ ?_
    · intro yes t' hout
      rcases hout with ⟨_, prev, hloc, hpfn, rfl⟩ | ⟨_, rfl, _⟩
      · exact linksAscend_unlink h hpfn hloc
      · exact h
    · intro t' ⟨_, prev, hloc, hpfn, he⟩
      rw [he]
      exact linksAscend_unlink h hpfn hloc
  exact hends.state

end Threaded

/-! ### Lists and registries together -/

/-- Some registries and some lists, none of which belongs to any other. -/
structure Pool (ι κ : Type) where
  registry : ι → Registry
  list : κ → FreeList

namespace Pool

variable {ι κ : Type} [DecidableEq ι] [DecidableEq κ] {P P₀ : Pool ι κ}

/-- What becomes of one list and one registry is kept, after an answer as after a fault. -/
def run (P : Pool ι κ) (l : κ) (i : ι) (op : Op Threaded Bool) (v : Verbosity) : Pool ι κ where
  registry := Function.update P.registry i (op v ⟨P.list l, P.registry i⟩).state.registry
  list := Function.update P.list l (op v ⟨P.list l, P.registry i⟩).state.list

def hide (P : Pool ι κ) (i : ι) (hidden : Nat → Bool) : Pool ι κ :=
  { P with registry := Function.update P.registry i ((P.registry i).hide hidden) }

/-- New tables with any frames hidden, and empty lists. -/
structure Fresh (P : Pool ι κ) : Prop where
  registry : ∀ i, ∃ pageSize base count table hidden,
    FrameTable.create pageSize base count = .ok table ∧
      P.registry i = (Registry.ofTable table).hide hidden
  list : ∀ l, P.list l = FreeList.empty

/-- What can be made of lists and registries: frames come into any list and go out of it, with the
links in any registry, and other frames of a registry are hidden. -/
inductive Reaches (P₀ : Pool ι κ) : Pool ι κ → Prop
  | start : Reaches P₀ P₀
  | insert {P : Pool ι κ} (l : κ) (i : ι) (pfn : Nat) (v : Verbosity) :
      Reaches P₀ P → Reaches P₀ (P.run l i (FreeList.insert pfn) v)
  | remove {P : Pool ι κ} (l : κ) (i : ι) (pfn : Nat) (v : Verbosity) :
      Reaches P₀ P → Reaches P₀ (P.run l i (FreeList.remove pfn) v)
  | hide {P : Pool ι κ} (i : ι) (hidden : Nat → Bool) :
      Reaches P₀ P → Reaches P₀ (P.hide i hidden)

/-- The links of one registry are written, and those of the others stay. -/
theorem linksAscend_run {op : Op Threaded Bool} {l : κ} {i : ι} {v : Verbosity}
    (h : ∀ j, (P.registry j).LinksAscend)
    (hop : (op v ⟨P.list l, P.registry i⟩).state.registry.LinksAscend) (j : ι) :
    ((P.run l i op v).registry j).LinksAscend := by
  change (Function.update P.registry i _ j).LinksAscend
  by_cases hj : j = i
  · rw [hj, Function.update_self]
    exact hop
  · rw [Function.update_of_ne hj]
    exact h j

theorem linksAscend_of_reaches (hfresh : P₀.Fresh) (h : P₀.Reaches P) (i : ι) :
    (P.registry i).LinksAscend := by
  induction h generalizing i with
  | start =>
    obtain ⟨_, _, _, table, hidden, htable, hregistry⟩ := hfresh.registry i
    intro p q hq
    have hlink : (P₀.registry i).link? p = none := by
      rw [hregistry]
      exact Registry.link?_of_create htable p
    simp [hlink] at hq
  | insert l j pfn v _ ih => exact linksAscend_run ih (Threaded.linksAscend_insert (ih j) pfn v) i
  | remove l j pfn v _ ih => exact linksAscend_run ih (Threaded.linksAscend_remove (ih j) pfn v) i
  | @hide P j hidden _ ih =>
    change (Function.update P.registry j _ i).LinksAscend
    by_cases hi : i = j
    · rw [hi, Function.update_self]
      exact ih j
    · rw [Function.update_of_ne hi]
      exact ih i

/-- **Links ascend whatever lists are used with whatever registries**, so every list can be read to
its end in every registry. -/
theorem ascends_of_reaches (hfresh : P₀.Fresh) (h : P₀.Reaches P) :
    (∀ i p q, (P.registry i).link? p = some q → p < q) ∧
      ∀ l i, ∃ xs, Leads (P.registry i).next? (P.list l).head xs none ∧ xs.Pairwise (· < ·) ∧
        xs.length ≤ (P.registry i).frameCount + 1 ∧ (P.list l).heads (P.registry i) = xs :=
  ⟨linksAscend_of_reaches hfresh h, fun _ i => (linksAscend_of_reaches hfresh h i).exists_heads _⟩

/-- Two lists that share a frame, one of them used with two tables, and a removal that finds the
length of the other one used up. -/
theorem ascends_after_shared_frame :
    ∃ P₀ P P' : Pool (Fin 2) (Fin 2), P₀.Fresh ∧ P₀.Reaches P ∧
      P' = P.run 0 0 (FreeList.remove 6) none ∧
      (FreeList.remove 6 none ⟨P.list 0, P.registry 0⟩).value =
        .error (.overflow .subtraction) ∧
      (P'.list 1).len = 3 ∧ (P'.list 1).heads (P'.registry 0) = [3] ∧
      (P'.list 1).heads (P'.registry 1) = [3, 5] ∧
      (∀ i p q, (P'.registry i).link? p = some q → p < q) ∧
      ∀ l i, ∃ xs, Leads (P'.registry i).next? (P'.list l).head xs none ∧
        xs.Pairwise (· < ·) ∧ xs.length ≤ (P'.registry i).frameCount + 1 ∧
        (P'.list l).heads (P'.registry i) = xs := by
  have hrun : ∃ P₀ P : Pool (Fin 2) (Fin 2), P₀.Fresh ∧ P₀.Reaches P ∧
      (FreeList.remove 6 none ⟨P.list 0, P.registry 0⟩).value =
        .error (.overflow .subtraction) ∧
      ((P.run 0 0 (FreeList.remove 6) none).list 1).len = 3 ∧
      ((P.run 0 0 (FreeList.remove 6) none).list 1).heads
        ((P.run 0 0 (FreeList.remove 6) none).registry 0) = [3] ∧
      ((P.run 0 0 (FreeList.remove 6) none).list 1).heads
        ((P.run 0 0 (FreeList.remove 6) none).registry 1) = [3, 5] := by
    refine ⟨⟨fun _ => (Registry.ofTable _).hide fun _ => false, fun _ => FreeList.empty⟩, _,
      ⟨fun _ => ⟨4096, 2, 8, _, _, rfl, rfl⟩, fun _ => rfl⟩,
      .remove 0 0 3 none (.hide 1 (· == 4) (.insert 1 1 5 none (.insert 1 0 6 none
        (.insert 1 0 3 none (.insert 0 0 3 none .start))))), ?_⟩
    decide +kernel
  obtain ⟨P₀, P, hfresh, h, hfault, hlen, hfirst, hsecond⟩ := hrun
  exact ⟨P₀, P, _, hfresh, h, rfl, hfault, hlen, hfirst, hsecond,
    ascends_of_reaches hfresh (.remove 0 0 6 none h)⟩

end Pool

end BuddySystem
