import BuddySystem.FreeList
import BuddySystem.Proofs.Ending
import BuddySystem.Proofs.Survey

/-!
# Chains of frames

`Leads next start frames stop` says that following `next` from `start` one meets
just `frames`, in that order, and comes to `stop`.  A list with its registry
spells an ascending sequence (`Threaded.Spells`) when its links lead from its
head through that sequence to their end and its length is that of the sequence.
Hidden descriptors count: what a list spells does not depend on what is hidden.

* `locate_located`: on a list that spells a sequence, the search for a frame says
  where in the sequence the frame is or belongs, unless a smaller frame of the
  sequence is hidden.  It never runs out of its budget.
* `leads_relink`: making a part of a chain lead on to another one joins the two.
* `insert_ends`, `remove_ends`, `contains_ends`: what the operations on a list do
  to the sequence that it spells.  They write the links of that sequence and of
  the frame that comes or goes, and nothing else.
-/

namespace BuddySystem

/-- Following `next` from `start` one meets the frames of the list and comes to `stop`. -/
def Leads (next : Nat → Option Nat) : Option Nat → List Nat → Option Nat → Prop
  | start, [], stop => start = stop
  | start, frame :: frames, stop => start = some frame ∧ Leads next (next frame) frames stop

variable {next next' : Nat → Option Nat} {start stop : Option Nat} {xs ys : List Nat} {pfn : Nat}

/-! ### Paths -/

theorem leads_append : ∀ {xs : List Nat} {start : Option Nat},
    Leads next start (xs ++ ys) stop ↔
      ∃ middle, Leads next start xs middle ∧ Leads next middle ys stop := by
  intro xs
  induction xs with
  | nil =>
    intro start
    exact ⟨fun h => ⟨start, rfl, h⟩, fun ⟨_, he, h⟩ => he ▸ h⟩
  | cons x xs ih =>
    intro start
    constructor
    · rintro ⟨hs, h⟩
      obtain ⟨middle, h1, h2⟩ := ih.mp h
      exact ⟨middle, ⟨hs, h1⟩, h2⟩
    · rintro ⟨middle, ⟨hs, h1⟩, h2⟩
      exact ⟨hs, ih.mpr ⟨middle, h1, h2⟩⟩

theorem leads_congr (h : ∀ x ∈ xs, next' x = next x) :
    Leads next' start xs stop ↔ Leads next start xs stop := by
  induction xs generalizing start with
  | nil => exact Iff.rfl
  | cons x xs ih =>
    unfold Leads
    rw [h x List.mem_cons_self, ih fun y hy => h y (List.mem_cons_of_mem x hy)]

theorem Leads.head?_eq (h : Leads next start xs none) : xs.head? = start := by
  cases xs with
  | nil => exact h.symm
  | cons x xs => exact h.1.symm

theorem Leads.unique : ∀ {xs ys : List Nat} {start : Option Nat},
    Leads next start xs none → Leads next start ys none → xs = ys := by
  intro xs
  induction xs with
  | nil =>
    intro ys start h h'
    cases ys with
    | nil => rfl
    | cons y ys => exact absurd (h.symm.trans h'.1) (by simp)
  | cons x xs ih =>
    intro ys start h h'
    cases ys with
    | nil => exact absurd (h.1.symm.trans h') (by simp)
    | cons y ys =>
      obtain rfl : x = y := Option.some.inj (h.1.symm.trans h'.1)
      rw [ih h.2 h'.2]

namespace Registry

variable {r : Registry}

/-- Frames that can all be reached are read off as they are linked, as many as the budget allows. -/
theorem chain_eq_take : ∀ {xs : List Nat} {start : Option Nat},
    Leads r.next? start xs none → ∀ budget, r.chain budget start = xs.take budget := by
  intro xs
  induction xs with
  | nil =>
    intro start h budget
    rw [show start = none from h, List.take_nil]
    cases budget <;> rfl
  | cons x xs ih =>
    intro start h budget
    cases budget with
    | zero => rfl
    | succ budget => rw [h.1, chain, ih h.2, List.take_succ_cons]

theorem chain_eq_of_leads {start : Option Nat} {budget : Nat} (h : Leads r.next? start xs none)
    (hlen : xs.length ≤ budget) : r.chain budget start = xs := by
  rw [chain_eq_take h, List.take_of_length_le hlen]

theorem leads_next? (h : Leads r.link? start xs stop) (hvis : ∀ x ∈ xs, r.has x = true) :
    Leads r.next? start xs stop :=
  (leads_congr fun x hx => next?_of_has (hvis x hx)).mpr h

/-! ### Searching -/

/-- What a search for `pfn` may come to on a chain that starts after `prev` and leads through
`xs`: the frame itself, its place, or a smaller frame that cannot be reached. -/
inductive Located (r : Registry) (pfn : Nat) (prev : Option Nat) (xs : List Nat) :
    Position → Prop
  | linked (before after : List Nat) : xs = before ++ pfn :: after →
      (∀ x ∈ before, r.has x = true) →
      Located r pfn prev xs (.linked (before.getLast?.or prev))
  | gap (before after : List Nat) : xs = before ++ after →
      (∀ x ∈ before, r.has x = true) → (∀ x ∈ before, x < pfn) → (∀ x ∈ after, pfn < x) →
      Located r pfn prev xs (.gap (before.getLast?.or prev) after.head?)
  | broken {x : Nat} : x ∈ xs → x < pfn → r.has x = false → Located r pfn prev xs (.broken x)

theorem getLast?_cons_or (x : Nat) (xs : List Nat) (prev : Option Nat) :
    (x :: xs).getLast?.or prev = xs.getLast?.or (some x) := by
  rw [List.getLast?_cons]
  cases xs.getLast? <;> rfl

theorem Located.cons {prev : Option Nat} {x : Nat} {position : Position} (hx : r.has x = true)
    (hlt : x < pfn) (h : Located r pfn (some x) xs position) :
    Located r pfn prev (x :: xs) position := by
  cases h with
  | linked before after he hb =>
    rw [← getLast?_cons_or x before prev]
    refine .linked (x :: before) after (by rw [he]; rfl) fun y hy => ?_
    rcases List.mem_cons.mp hy with rfl | hy
    · exact hx
    · exact hb y hy
  | gap before after he hb hbl ha =>
    rw [← getLast?_cons_or x before prev]
    refine .gap (x :: before) after (by rw [he]; rfl) (fun y hy => ?_) (fun y hy => ?_) ha
    · rcases List.mem_cons.mp hy with rfl | hy
      · exact hx
      · exact hb y hy
    · rcases List.mem_cons.mp hy with rfl | hy
      · exact hlt
      · exact hbl y hy
  | broken hmem hb hvis => exact .broken (List.mem_cons_of_mem x hmem) hb hvis

/-- **A search on an ascending chain says where the frame is or belongs.**  The budget is never
what ends it. -/
theorem locate_located : ∀ {xs : List Nat} {start prev : Option Nat} {budget : Nat},
    Leads r.link? start xs none → xs.Pairwise (· < ·) → xs.length ≤ budget →
    Located r pfn prev xs (r.locate pfn budget prev start) := by
  intro xs
  induction xs with
  | nil =>
    intro start prev budget h _ _
    rw [show start = none from h]
    have hgap : Located r pfn prev [] (.gap prev none) :=
      .gap [] [] rfl (by simp) (by simp) (by simp)
    cases budget <;> exact hgap
  | cons x xs ih =>
    intro start prev budget h hasc hlen
    obtain ⟨hx, hasc⟩ := List.pairwise_cons.mp hasc
    cases budget with
    | zero => exact absurd hlen (by simp)
    | succ budget =>
      rw [h.1, locate]
      by_cases heq : x = pfn
      · rw [if_pos heq]
        exact .linked [] xs (by rw [heq]; rfl) (by simp)
      by_cases hlt : pfn < x
      · rw [if_neg heq, if_pos hlt]
        refine .gap [] (x :: xs) rfl (by simp) (by simp) fun y hy => ?_
        rcases List.mem_cons.mp hy with rfl | hy
        · exact hlt
        · exact Nat.lt_trans hlt (hx y hy)
      rw [if_neg heq, if_neg hlt]
      have hxp : x < pfn := by omega
      cases hpage : r.page? x with
      | none =>
        have hhas : r.has x = false := by rw [has, hpage]; rfl
        exact .broken List.mem_cons_self hxp hhas
      | some page =>
        have hhas : r.has x = true := by rw [has, hpage]; rfl
        have hnext : page.nextFree = r.link? x := by
          rw [← next?_of_has hhas, next?, hpage]
          rfl
        refine Located.cons hhas hxp ?_
        change r.Located pfn (some x) xs (r.locate pfn budget (some x) page.nextFree)
        rw [hnext]
        exact ih h.2 hasc (Nat.le_of_succ_le_succ hlen)

end Registry

/-! ### Lists -/

namespace Threaded

/-- The list leads through the ascending sequence `xs`, and its length is the length of `xs`. -/
structure Spells (t : Threaded) (xs : List Nat) : Prop where
  leads : Leads t.registry.link? t.list.head xs none
  ascending : xs.Pairwise (· < ·)
  len : t.list.len = xs.length

variable {t : Threaded}

theorem Spells.nodup (h : t.Spells xs) : xs.Nodup :=
  h.ascending.imp fun hlt => Nat.ne_of_lt hlt

theorem Spells.unique (h : t.Spells xs) (h' : t.Spells ys) : xs = ys := h.leads.unique h'.leads

theorem Spells.located (h : t.Spells xs) (pfn : Nat) :
    t.registry.Located pfn none xs (t.locate pfn) := by
  refine Registry.locate_located h.leads h.ascending ?_
  rw [h.len]
  exact Nat.le_succ _

theorem Spells.congr {t' : Threaded} (h : t.Spells xs) (hlist : t'.list = t.list)
    (hlink : ∀ x ∈ xs, t'.registry.link? x = t.registry.link? x) : t'.Spells xs where
  leads := by
    rw [hlist]
    exact (leads_congr hlink).mpr h.leads
  ascending := h.ascending
  len := by rw [hlist, h.len]

/-! ### Linking and unlinking -/

@[simp] theorem survey_relink (prev next : Option Nat) :
    (t.relink prev next).registry.survey = t.registry.survey := by
  cases prev with
  | none => rfl
  | some frame => exact Registry.survey_modify_setNext _ _

@[simp] theorem len_relink (prev next : Option Nat) :
    (t.relink prev next).list.len = t.list.len := by
  cases prev <;> rfl

theorem link?_relink (prev next : Option Nat) (hvis : ∀ p ∈ prev, t.registry.has p = true)
    {q : Nat} (hq : q ∉ prev) : (t.relink prev next).registry.link? q = t.registry.link? q := by
  cases prev with
  | none => rfl
  | some p =>
    rw [relink, Registry.link?_modify_setNext (hvis p rfl), if_neg]
    exact fun he => hq (he ▸ rfl)

/-- **Making the end of one path lead on to another path joins the two.** -/
theorem leads_relink {before after : List Nat} {middle next : Option Nat}
    (hbefore : Leads t.registry.link? t.list.head before middle)
    (hafter : Leads t.registry.link? next after none)
    (hvis : ∀ x ∈ before, t.registry.has x = true) (hnodup : (before ++ after).Nodup) :
    Leads (t.relink before.getLast? next).registry.link?
      (t.relink before.getLast? next).list.head (before ++ after) none := by
  rcases List.eq_nil_or_concat before with rfl | ⟨init, p, rfl⟩
  · exact hafter
  · rw [List.concat_eq_append] at hbefore hvis hnodup ⊢
    have hp : t.registry.has p = true := hvis p (by simp)
    obtain ⟨mid, hinit, hmid, hnext⟩ := leads_append.mp hbefore
    rw [List.getLast?_append, List.getLast?_singleton, Option.some_or]
    have hlink := Registry.link?_modify_setNext hp next
    simp only [List.append_assoc, List.nodup_append, List.singleton_append, List.nodup_cons,
      List.mem_cons, ne_eq, forall_eq_or_imp] at hnodup
    obtain ⟨_, ⟨hpafter, _⟩, hpinit⟩ := hnodup
    rw [List.append_assoc, leads_append]
    refine ⟨mid, (leads_congr fun x hx => ?_).mpr hinit, hmid, ?_⟩
    · change (t.registry.modify p (Page.setNext next)).link? x = _
      rw [hlink, if_neg]
      rintro rfl
      exact (hpinit x hx).1 rfl
    · change Leads _ ((t.registry.modify p (Page.setNext next)).link? p) after none
      rw [hlink, if_pos rfl]
      refine (leads_congr fun x hx => ?_).mpr hafter
      change (t.registry.modify p (Page.setNext next)).link? x = _
      rw [hlink, if_neg]
      rintro rfl
      exact hpafter hx

/-- At most the links of these frames differ. -/
structure Relinks (frames : List Nat) (t t' : Threaded) : Prop where
  survey : t'.registry.survey = t.registry.survey
  /-- The links of all other frames are the same. -/
  link : ∀ q ∉ frames, t'.registry.link? q = t.registry.link? q

variable {before after : List Nat}

theorem link_spells (h : t.Spells (before ++ after)) (hvis : ∀ x ∈ before, t.registry.has x = true)
    (hp : t.registry.has pfn = true) (hlt : ∀ x ∈ before, x < pfn) (hgt : ∀ x ∈ after, pfn < x) :
    ((t.link pfn before.getLast? after.head?).setLen (t.list.len + 1)).Spells
        (before ++ pfn :: after) ∧
      Relinks (pfn :: (before ++ after)) t
        ((t.link pfn before.getLast? after.head?).setLen (t.list.len + 1)) := by
  obtain ⟨middle, hbefore, hafter⟩ := leads_append.mp h.leads
  obtain rfl := hafter.head?_eq
  have hlink := Registry.link?_modify_setNext hp after.head?
  have hasc : (before ++ pfn :: after).Pairwise (· < ·) := by
    have hold := List.pairwise_append.mp h.ascending
    refine List.pairwise_append.mpr ⟨hold.1, List.pairwise_cons.mpr ⟨hgt, hold.2.1⟩, ?_⟩
    intro x hx y hy
    rcases List.mem_cons.mp hy with rfl | hy
    · exact hlt x hx
    · exact hold.2.2 x hx y hy
  have hold : ∀ x ≠ pfn,
      (t.registry.modify pfn (Page.setNext after.head?)).link? x = t.registry.link? x := by
    intro x hx
    rw [hlink, if_neg hx]
  have hvis' : ∀ x ∈ before,
      (t.registry.modify pfn (Page.setNext after.head?)).has x = true := by
    intro x hx
    rw [Registry.has_modify]
    exact hvis x hx
  have hafter' : Leads (t.registry.modify pfn (Page.setNext after.head?)).link? (some pfn)
      (pfn :: after) none := by
    refine ⟨rfl, ?_⟩
    rw [hlink, if_pos rfl]
    exact (leads_congr fun x hx => hold x (Nat.ne_of_gt (hgt x hx))).mpr hafter
  have hleads := leads_relink
    (t := { t with registry := t.registry.modify pfn (Page.setNext after.head?) })
    ((leads_congr fun x hx => hold x (Nat.ne_of_lt (hlt x hx))).mpr hbefore) hafter'
    hvis' (hasc.imp Nat.ne_of_lt)
  refine ⟨⟨hleads, hasc, ?_⟩, ?_, fun q hq => ?_⟩
  · change t.list.len + 1 = _
    rw [h.len]
    simp only [List.length_append, List.length_cons]
    omega
  · exact (survey_relink _ _).trans (Registry.survey_modify_setNext _ _)
  · have hne : q ≠ pfn := fun he => hq (he ▸ List.mem_cons_self)
    have hprev : q ∉ before.getLast? := fun hm =>
      hq (List.mem_cons_of_mem _ (List.mem_append_left _ (List.mem_of_getLast? hm)))
    exact (link?_relink _ _ (fun p hpm => hvis' p (List.mem_of_getLast? hpm)) hprev).trans
      (hold q hne)

theorem unlink_spells (h : t.Spells (before ++ pfn :: after))
    (hvis : ∀ x ∈ before, t.registry.has x = true) (hp : t.registry.has pfn = true) :
    ((t.unlink pfn before.getLast?).setLen (t.list.len - 1)).Spells (before ++ after) ∧
      Relinks (before ++ pfn :: after) t
        ((t.unlink pfn before.getLast?).setLen (t.list.len - 1)) ∧
      ((t.unlink pfn before.getLast?).setLen (t.list.len - 1)).registry.link? pfn = none := by
  obtain ⟨middle, hbefore, hmiddle, hafter⟩ := leads_append.mp h.leads
  have hnodup := h.nodup
  have hsub : (before ++ after).Sublist (before ++ pfn :: after) :=
    List.Sublist.append_left (List.sublist_cons_self pfn after) before
  have hne : ∀ x ∈ before ++ after, x ≠ pfn := by
    intro x hx he
    subst he
    rw [List.nodup_append, List.nodup_cons] at hnodup
    rcases List.mem_append.mp hx with hx | hx
    · exact hnodup.2.2 x hx x List.mem_cons_self rfl
    · exact hnodup.2.1.1 hx
  have hlink := Registry.link?_modify_setNext hp none
  have hold : ∀ x ≠ pfn,
      (t.registry.modify pfn (Page.setNext none)).link? x = t.registry.link? x := by
    intro x hx
    rw [hlink, if_neg hx]
  have hvis' : ∀ x ∈ before, (t.registry.modify pfn (Page.setNext none)).has x = true := by
    intro x hx
    rw [Registry.has_modify]
    exact hvis x hx
  have hafter' : Leads (t.registry.modify pfn (Page.setNext none)).link?
      (t.registry.next? pfn) after none := by
    rw [Registry.next?_of_has hp]
    exact (leads_congr fun x hx => hold x (hne x (List.mem_append_right _ hx))).mpr hafter
  have hleads := leads_relink
    (t := { t with registry := t.registry.modify pfn (Page.setNext none) })
    ((leads_congr fun x hx => hold x (hne x (List.mem_append_left _ hx))).mpr hbefore) hafter'
    hvis' (hnodup.sublist hsub)
  have hother : ∀ q ∉ before,
      ((t.unlink pfn before.getLast?).setLen (t.list.len - 1)).registry.link? q =
        (t.registry.modify pfn (Page.setNext none)).link? q := fun q hq =>
    link?_relink _ _ (fun p hpm => hvis' p (List.mem_of_getLast? hpm))
      fun hm => hq (List.mem_of_getLast? hm)
  refine ⟨⟨hleads, h.ascending.sublist hsub, ?_⟩, ⟨?_, fun q hq => ?_⟩, ?_⟩
  · change t.list.len - 1 = _
    rw [h.len]
    simp only [List.length_append, List.length_cons]
    omega
  · exact (survey_relink _ _).trans (Registry.survey_modify_setNext _ _)
  · have hqp : q ≠ pfn := fun he => hq (by simp [he])
    rw [hother q fun hm => hq (List.mem_append_left _ hm), hold q hqp]
  · have hpb : pfn ∉ before := fun hm => hne pfn (List.mem_append_left _ hm) rfl
    rw [hother pfn hpb, hlink, if_pos rfl]

end Threaded

/-! ### The operations on a list -/

namespace FreeList

variable {t : Threaded} {v : Verbosity}

/-- **Putting a frame in.**  It is refused only if the list holds the frame, or the frame or a
smaller one of the list cannot be reached. -/
theorem insert_ends (h : t.Spells xs) (hlen : xs.length + 1 < Word.limit) :
    (insert pfn).Ends v t
      (fun yes t' =>
        (yes = true ∧ pfn ∉ xs ∧ t.registry.has pfn = true ∧ t.Relinks (pfn :: xs) t' ∧
          ∃ ys, t'.Spells ys ∧ ∀ q, q ∈ ys ↔ q = pfn ∨ q ∈ xs) ∨
        (yes = false ∧ t' = t ∧
          (pfn ∈ xs ∨ t.registry.has pfn = false ∨ ∃ x ∈ xs, x < pfn ∧ t.registry.has x = false)))
      fun _ => False := by
  have hloc := h.located pfn
  unfold insert
  rw [Op.ends_bind, Op.ends_query]
  generalize t.locate pfn = position at hloc
  cases hloc with
  | linked before after he _ =>
    exact Or.inr ⟨rfl, rfl, Or.inl (by simp [he])⟩
  | broken hmem hlt hvis =>
    exact Or.inr ⟨rfl, rfl, Or.inr (Or.inr ⟨_, hmem, hlt, hvis⟩)⟩
  | gap before after he hvis hlt hgt =>
    subst he
    rw [Option.or_none]
    dsimp only
    rw [Op.ends_bind, Op.ends_query]
    by_cases hp : t.registry.has pfn = true
    · have hlink := Threaded.link_spells h hvis hp hlt hgt
      rw [if_pos hp, Op.ends_bind, Op.ends_modify, Op.ends_bind]
      have hadd : Word.add (t.link pfn before.getLast? after.head?).list.len 1 =
          .ok (t.list.len + 1) := by
        rw [Threaded.link, Threaded.len_relink]
        exact Word.add_eq_ok_iff.mpr ⟨rfl, by rw [h.len]; exact hlen⟩
      refine Op.Ends.compute hadd ?_
      rw [Op.ends_bind, Op.ends_modify, Op.ends_pure]
      refine Or.inl ⟨rfl, fun hm => ?_, hp, hlink.2, _, hlink.1, fun q => ?_⟩
      · rcases List.mem_append.mp hm with hm | hm
        · exact Nat.lt_irrefl _ (hlt pfn hm)
        · exact Nat.lt_irrefl _ (hgt pfn hm)
      · simp only [List.mem_append, List.mem_cons]
        tauto
    · rw [if_neg hp]
      exact Or.inr ⟨rfl, rfl, Or.inr (Or.inl (Bool.eq_false_iff.mpr hp))⟩

/-- **Taking a frame out.**  It is refused only if the list does not hold the frame, or the frame
or a smaller one of the list cannot be reached. -/
theorem remove_ends (h : t.Spells xs) :
    (remove pfn).Ends v t
      (fun yes t' =>
        (yes = true ∧ pfn ∈ xs ∧ t.Relinks xs t' ∧ t'.registry.link? pfn = none ∧
          ∃ ys, t'.Spells ys ∧ ∀ q, q ∈ ys ↔ q ∈ xs ∧ q ≠ pfn) ∨
        (yes = false ∧ t' = t ∧ (pfn ∉ xs ∨ ∃ x ∈ xs, x ≤ pfn ∧ t.registry.has x = false)))
      fun _ => False := by
  have hloc := h.located pfn
  unfold remove
  rw [Op.ends_bind, Op.ends_query]
  generalize t.locate pfn = position at hloc
  cases hloc with
  | broken hmem hlt hvis =>
    exact Or.inr ⟨rfl, rfl, Or.inr ⟨_, hmem, Nat.le_of_lt hlt, hvis⟩⟩
  | gap before after he _ hlt hgt =>
    refine Or.inr ⟨rfl, rfl, Or.inl fun hm => ?_⟩
    rw [he] at hm
    rcases List.mem_append.mp hm with hm | hm
    · exact Nat.lt_irrefl _ (hlt pfn hm)
    · exact Nat.lt_irrefl _ (hgt pfn hm)
  | linked before after he hvis =>
    subst he
    rw [Option.or_none]
    dsimp only
    rw [Op.ends_bind, Op.ends_query]
    by_cases hp : t.registry.has pfn = true
    · obtain ⟨hspells, hrelinks, hnone⟩ := Threaded.unlink_spells h hvis hp
      rw [if_pos hp, Op.ends_bind, Op.ends_modify, Op.ends_bind]
      have hsub : Word.sub (t.unlink pfn before.getLast?).list.len 1 =
          .ok (t.list.len - 1) := by
        rw [Threaded.unlink, Threaded.len_relink]
        refine Word.sub_eq_ok_iff.mpr ⟨?_, rfl⟩
        rw [h.len, List.length_append, List.length_cons]
        omega
      refine Op.Ends.compute hsub ?_
      rw [Op.ends_bind, Op.ends_modify, Op.ends_pure]
      refine Or.inl ⟨rfl, by simp, hrelinks, hnone, _, hspells, fun q => ?_⟩
      have hnodup := h.nodup
      rw [List.nodup_append, List.nodup_cons] at hnodup
      simp only [List.mem_append, List.mem_cons]
      constructor
      · intro hq
        refine ⟨hq.imp_right Or.inr, ?_⟩
        rintro rfl
        rcases hq with hq | hq
        · exact hnodup.2.2 q hq q List.mem_cons_self rfl
        · exact hnodup.2.1.1 hq
      · rintro ⟨hq | hq | hq, hne⟩
        · exact Or.inl hq
        · exact absurd hq hne
        · exact Or.inr hq
    · rw [if_neg hp]
      exact Or.inr ⟨rfl, rfl, Or.inr ⟨pfn, by simp, Nat.le_refl _, Bool.eq_false_iff.mpr hp⟩⟩

/-- **Looking for a frame.**  A frame of the list is missed only if a smaller one of the list
cannot be reached. -/
theorem contains_ends (h : t.Spells xs) :
    (contains pfn).Ends v t
      (fun yes t' => t' = t ∧
        if yes then pfn ∈ xs else pfn ∉ xs ∨ ∃ x ∈ xs, x < pfn ∧ t.registry.has x = false)
      fun _ => False := by
  have hloc := h.located pfn
  unfold contains
  rw [Op.ends_bind, Op.ends_query]
  generalize t.locate pfn = position at hloc
  cases hloc with
  | broken hmem hlt hvis => exact ⟨rfl, Or.inr ⟨_, hmem, hlt, hvis⟩⟩
  | linked before after he _ =>
    refine ⟨rfl, ?_⟩
    simp [he]
  | gap before after he _ hlt hgt =>
    refine ⟨rfl, Or.inl fun hm => ?_⟩
    rw [he] at hm
    rcases List.mem_append.mp hm with hm | hm
    · exact Nat.lt_irrefl _ (hlt pfn hm)
    · exact Nat.lt_irrefl _ (hgt pfn hm)

end FreeList

end BuddySystem
