import Evlis.Proofs.ThreadProgress
import Mathlib.Data.Finset.Basic

/-!
# Families of tasks

A task that hands over an operand is the parent of the task that evaluates it. The child may reach
the frames that were pending when it was made; they stay pending as long as the parent waits for the
child, and for good if the parent fails before. The frames that tasks hold are therefore out of
reach of all tasks but their descendants, none of which can see them filled.
-/

namespace Evlis

/-- What there is to know of a task: its thread, its parent, the frames that were pending when it
was made, the expression it evaluates, and the lines that it has printed, together with its children
as far as it has collected their values. -/
structure Entry where
  thread : Thread Unit
  parent : Nat
  base : List Nat
  origin : Value Unit × Env Unit
  lines : Multiset String

abbrev Ledger := Nat → Entry

namespace Ledger

def revise (E : Ledger) (t : Nat) (thread : Thread Unit) (more : Multiset String) : Ledger :=
  Function.update E t { E t with thread, lines := (E t).lines + more }

variable (E : Ledger) (t : Nat) (thread : Thread Unit) (more : Multiset String)

@[simp]
lemma revise_self :
    E.revise t thread more t = { E t with thread, lines := (E t).lines + more } :=
  Function.update_self ..

lemma revise_of_ne {k : Nat} (h : k ≠ t) : E.revise t thread more k = E k :=
  Function.update_of_ne h ..

@[simp]
lemma parent_revise (k : Nat) : (E.revise t thread more k).parent = (E k).parent := by
  by_cases h : k = t
  · rw [h, revise_self]
  · rw [revise_of_ne E t thread more h]

@[simp]
lemma base_revise (k : Nat) : (E.revise t thread more k).base = (E k).base := by
  by_cases h : k = t
  · rw [h, revise_self]
  · rw [revise_of_ne E t thread more h]

@[simp]
lemma origin_revise (k : Nat) : (E.revise t thread more k).origin = (E k).origin := by
  by_cases h : k = t
  · rw [h, revise_self]
  · rw [revise_of_ne E t thread more h]

def submit (E : Ledger) (t k : Nat) (e : Value Unit) (sharing : Sharing Unit)
    (stack : List (Cont Unit)) : Ledger :=
  Function.update
    (E.revise t ⟨.fork { sharing with underway := .task k :: sharing.underway }, stack⟩ 0) k
    ⟨.start e sharing.env, t, held stack ++ (E t).base, (e, sharing.env), 0⟩

section Submit

variable (E : Ledger) {t k j : Nat} (e : Value Unit) (sharing : Sharing Unit)
  (stack : List (Cont Unit))

lemma submit_new : E.submit t k e sharing stack k =
    ⟨.start e sharing.env, t, held stack ++ (E t).base, (e, sharing.env), 0⟩ :=
  Function.update_self ..

lemma submit_parent (h : t ≠ k) : E.submit t k e sharing stack t = { E t with
    thread := ⟨.fork { sharing with underway := .task k :: sharing.underway }, stack⟩ } := by
  rw [submit, Function.update_of_ne h, revise_self, add_zero]

lemma submit_of_ne (hk : j ≠ k) (ht : j ≠ t) : E.submit t k e sharing stack j = E j := by
  rw [submit, Function.update_of_ne hk, revise_of_ne _ _ _ _ ht]

lemma parent_submit (hk : j ≠ k) : (E.submit t k e sharing stack j).parent = (E j).parent := by
  rw [submit, Function.update_of_ne hk, parent_revise]

lemma base_submit (hk : j ≠ k) : (E.submit t k e sharing stack j).base = (E j).base := by
  rw [submit, Function.update_of_ne hk, base_revise]

lemma origin_submit (hk : j ≠ k) : (E.submit t k e sharing stack j).origin = (E j).origin := by
  rw [submit, Function.update_of_ne hk, origin_revise]

lemma lines_submit (hk : j ≠ k) : (E.submit t k e sharing stack j).lines = (E j).lines := by
  by_cases hjt : j = t
  · subst hjt
    rw [submit_parent E e sharing stack hk]
  · rw [submit_of_ne E e sharing stack hk hjt]

variable {E e sharing stack}

lemma stack_submit (hk : j ≠ k) (hthread : (E t).thread = ⟨.submit e sharing, stack⟩) :
    (E.submit t k e sharing stack j).thread.stack = (E j).thread.stack := by
  by_cases hjt : j = t
  · subst hjt
    rw [submit_parent E e sharing stack hk, hthread]
  · rw [submit_of_ne E e sharing stack hk hjt]

lemma owed_submit_parent (h : t ≠ k) (hthread : (E t).thread = ⟨.submit e sharing, stack⟩) :
    (E.submit t k e sharing stack t).thread.owed = (k, held stack) :: (E t).thread.owed := by
  rw [submit_parent E e sharing stack h, hthread]
  rfl

end Submit

end Ledger

/-- The parent waits for the child, or it has failed and keeps the frames of the child. -/
def Holds (thread : Thread Unit) (child : Nat) (P : List Nat) : Prop :=
  (child, P) ∈ thread.owed ∨
    (∃ fault, thread.control = .fail fault) ∧ ∀ n ∈ P, n ∈ held thread.stack

lemma held_of_owedBy {stack : List (Cont Unit)} {child : Nat} {P : List Nat}
    (h : (child, P) ∈ owedBy stack) : ∀ n ∈ P, n ∈ held stack := by
  induction stack with
  | nil => cases h
  | cons cont stack ih =>
    intro n hn
    refine held_subset cont stack n ?_
    rcases List.mem_append.mp h with h | h
    · obtain ⟨k, -, hk⟩ := List.mem_map.mp h
      cases hk
      exact hn
    · exact ih h n hn

lemma held_of_owed {thread : Thread Unit} {child : Nat} {P : List Nat}
    (h : (child, P) ∈ thread.owed) : ∀ n ∈ P, n ∈ held thread.stack := by
  rcases List.mem_append.mp h with h | h
  · obtain ⟨k, -, hk⟩ := List.mem_map.mp h
    cases hk
    exact fun n hn => hn
  · exact held_of_owedBy h

lemma Holds.held {thread : Thread Unit} {child : Nat} {P : List Nat}
    (h : Holds thread child P) : ∀ n ∈ P, n ∈ held thread.stack :=
  h.elim held_of_owed And.right

/-- The tasks in `live` are the caller and its descendants whose values have not been collected. -/
structure Family (live : Finset Nat) (E : Ledger) : Prop where
  caller : 0 ∈ live
  root : (E 0).base = []
  apart : ∀ t ∈ live, ∀ k ∈ live, t ≠ k → ∀ n ∈ held (E t).thread.stack,
    n ∉ held (E k).thread.stack
  distinct : ∀ t ∈ live, ((E t).thread.owed.map Prod.fst).Nodup
  children : ∀ t ∈ live, ∀ k P, (k, P) ∈ (E t).thread.owed →
    k ∈ live ∧ t < k ∧ (E k).parent = t ∧ (E k).base = P ++ (E t).base
  lineage : ∀ k ∈ live, k ≠ 0 → (E k).parent ∈ live ∧ (E k).parent < k ∧
    ∃ P, (E k).base = P ++ (E (E k).parent).base ∧ Holds (E (E k).parent).thread k P

namespace Family

variable {live : Finset Nat} {E : Ledger} {t k : Nat}

/-- A frame that a task has inherited is kept by one of its ancestors for a child. -/
lemma exists_holds (h : Family live E) (hk : k ∈ live) {n : Nat} (hn : n ∈ (E k).base) :
    ∃ j ∈ live, ∃ child P, Holds (E j).thread child P ∧ n ∈ P := by
  induction k using Nat.strong_induction_on with
  | _ k ih =>
    by_cases hzero : k = 0
    · rw [hzero, h.root] at hn
      cases hn
    · obtain ⟨hparent, hlt, P, hbase, hholds⟩ := h.lineage k hk hzero
      rw [hbase] at hn
      rcases List.mem_append.mp hn with hn | hn
      · exact ⟨(E k).parent, hparent, k, P, hholds, hn⟩
      · exact ih (E k).parent hlt hparent hn

/-- A frame that a task is done with is out of reach of all others. -/
lemma not_reached (h : Family live E) (ht : t ∈ live) (hk : k ∈ live) (hne : k ≠ t) {n : Nat}
    (hn : n ∈ held (E t).thread.stack) (hdone : ∀ child P, Holds (E t).thread child P → n ∉ P) :
    n ∉ held (E k).thread.stack ++ (E k).base := by
  intro hmem
  rcases List.mem_append.mp hmem with hmem | hmem
  · exact h.apart t ht k hk hne.symm n hn hmem
  · obtain ⟨j, hj, child, P, hholds, hP⟩ := h.exists_holds hk hmem
    by_cases heq : t = j
    · subst heq
      exact hdone child P hholds hP
    · exact h.apart t ht j hj heq n hn (hholds.held n hP)

/-- A task that has a value has no children left. -/
lemma not_parent (h : Family live E) (hk : k ∈ live) (hzero : k ≠ 0) {v : Value Unit}
    (hgives : (E t).thread = ⟨.give v, []⟩) : (E k).parent ≠ t := by
  rintro rfl
  obtain ⟨-, -, P, -, hholds⟩ := h.lineage k hk hzero
  rw [hgives] at hholds
  rcases hholds with hmem | ⟨⟨fault, hfault⟩, -⟩
  · cases hmem
  · cases hfault

/-- When the caller has a value, no other task is left. -/
lemma eq_zero_of_caller (h : Family live E) {v : Value Unit}
    (hgives : (E 0).thread = ⟨.give v, []⟩) (hk : k ∈ live) : k = 0 := by
  induction k using Nat.strong_induction_on with
  | _ k ih =>
    by_contra hzero
    obtain ⟨hparent, hlt, -⟩ := h.lineage k hk hzero
    exact h.not_parent hk hzero hgives (ih (E k).parent hlt hparent)

/-- A task goes on. Some of its children may leave the family with that, but none that have
children themselves. -/
lemma revise (h : Family live E) (ht : t ∈ live) {live' : Finset Nat} {thread : Thread Unit}
    (more : Multiset String) (hsub : live' ⊆ live) (hcaller : 0 ∈ live')
    (hheld : ∀ n ∈ held thread.stack, n ∈ held (E t).thread.stack ∨
      ∀ k ∈ live, n ∉ held (E k).thread.stack)
    (howed : ∀ k P, (k, P) ∈ thread.owed → k ∈ live' ∧ (k, P) ∈ (E t).thread.owed)
    (hdistinct : (thread.owed.map Prod.fst).Nodup)
    (hholds : ∀ k ∈ live', ∀ P, Holds (E t).thread k P → Holds thread k P)
    (hparents : ∀ k ∈ live', k ≠ 0 → (E k).parent ∈ live')
    (hchildren : ∀ j ∈ live', j ≠ t → ∀ k P, (k, P) ∈ (E j).thread.owed → k ∈ live') :
    Family live' (E.revise t thread more) := by
  refine ⟨hcaller, ?_, ?_, ?_, ?_, ?_⟩
  · rw [Ledger.base_revise, h.root]
  · intro j hj k hk hne n hn
    have hjk := h.apart j (hsub hj) k (hsub hk) hne n
    by_cases hjt : j = t
    · subst hjt
      rw [Ledger.revise_self] at hn
      rw [Ledger.revise_of_ne _ _ _ _ hne.symm]
      rcases hheld n hn with hn | hnone
      · exact hjk hn
      · exact hnone k (hsub hk)
    · rw [Ledger.revise_of_ne _ _ _ _ hjt] at hn
      by_cases hkt : k = t
      · subst hkt
        rw [Ledger.revise_self]
        intro hmem
        rcases hheld n hmem with hmem | hnone
        · exact hjk hn hmem
        · exact hnone j (hsub hj) hn
      · rw [Ledger.revise_of_ne _ _ _ _ hkt]
        exact hjk hn
  · intro j hj
    by_cases hjt : j = t
    · subst hjt
      rw [Ledger.revise_self]
      exact hdistinct
    · rw [Ledger.revise_of_ne _ _ _ _ hjt]
      exact h.distinct j (hsub hj)
  · intro j hj k P hmem
    rw [Ledger.parent_revise, Ledger.base_revise, Ledger.base_revise]
    by_cases hjt : j = t
    · subst hjt
      rw [Ledger.revise_self] at hmem
      obtain ⟨hk, hmem⟩ := howed k P hmem
      exact ⟨hk, (h.children j ht k P hmem).2⟩
    · rw [Ledger.revise_of_ne _ _ _ _ hjt] at hmem
      exact ⟨hchildren j hj hjt k P hmem, (h.children j (hsub hj) k P hmem).2⟩
  · intro k hk hzero
    obtain ⟨-, hlt, P, hbase, hholds'⟩ := h.lineage k (hsub hk) hzero
    rw [Ledger.parent_revise, Ledger.base_revise, Ledger.base_revise]
    refine ⟨hparents k hk hzero, hlt, P, hbase, ?_⟩
    by_cases hparent : (E k).parent = t
    · rw [hparent] at hholds' ⊢
      rw [Ledger.revise_self]
      exact hholds k hk P hholds'
    · rw [Ledger.revise_of_ne _ _ _ _ hparent]
      exact hholds'

lemma advance (h : Family live E) (ht : t ∈ live) {thread : Thread Unit} (more : Multiset String)
    (unfailed : ∀ fault, (E t).thread.control ≠ .fail fault)
    (hheld : ∀ n ∈ held thread.stack, n ∈ held (E t).thread.stack ∨
      ∀ k ∈ live, n ∉ held (E k).thread.stack)
    (howed : thread.owed.Perm (E t).thread.owed) : Family live (E.revise t thread more) := by
  refine h.revise ht more (Finset.Subset.refl live) h.caller hheld ?_ ?_ ?_ ?_ ?_
  · intro k P hmem
    have hmem' := howed.mem_iff.mp hmem
    exact ⟨(h.children t ht k P hmem').1, hmem'⟩
  · exact (howed.map Prod.fst).nodup_iff.mpr (h.distinct t ht)
  · rintro k - P (hmem | ⟨⟨fault, hfault⟩, -⟩)
    · exact .inl (howed.mem_iff.mpr hmem)
    · exact absurd hfault (unfailed fault)
  · exact fun k hk hzero => (h.lineage k hk hzero).1
  · exact fun j hj _ k P hmem => (h.children j hj k P hmem).1

lemma fail (h : Family live E) (ht : t ∈ live) {control : Control Unit} {stack : List (Cont Unit)}
    (hthread : (E t).thread = ⟨control, stack⟩) (fault : Fault) (more : Multiset String) :
    Family live (E.revise t ⟨.fail fault, stack⟩ more) := by
  have howed : (E t).thread.owed = control.tasks.map (·, held stack) ++ owedBy stack := by
    rw [hthread]
    rfl
  refine h.revise ht more (Finset.Subset.refl live) h.caller ?_ ?_ ?_ ?_ ?_ ?_
  · intro n hn
    rw [hthread]
    exact .inl hn
  · intro k P hmem
    have hmem' : (k, P) ∈ (E t).thread.owed := by
      rw [howed]
      exact List.mem_append_right _ hmem
    exact ⟨(h.children t ht k P hmem').1, hmem'⟩
  · have hdistinct := h.distinct t ht
    rw [howed, List.map_append] at hdistinct
    exact hdistinct.of_append_right
  · intro k _ P hholds
    have hP := hholds.held
    rw [hthread] at hP
    exact .inr ⟨⟨fault, rfl⟩, hP⟩
  · exact fun k hk hzero => (h.lineage k hk hzero).1
  · exact fun j hj _ k P hmem => (h.children j hj k P hmem).1

section Collecting

variable {head v : Value Unit} {values : List (Value Unit)} {underway : List (Operand Unit)}
  {purpose : Purpose} {stack : List (Cont Unit)}

lemma awaited (h : Family live E) (ht : t ∈ live)
    (hthread : (E t).thread = ⟨.join head values (.task k :: underway) purpose, stack⟩) :
    k ∈ live ∧ t < k ∧ (E k).parent = t ∧ (E k).base = held stack ++ (E t).base := by
  refine h.children t ht k (held stack) ?_
  rw [hthread]
  exact List.mem_cons_self

/-- The value of a child is collected, and the child leaves the family. -/
lemma collect (h : Family live E) (ht : t ∈ live)
    (hthread : (E t).thread = ⟨.join head values (.task k :: underway) purpose, stack⟩)
    (hgives : (E k).thread = ⟨.give v, []⟩) (more : Multiset String) :
    Family (live.erase k)
      (E.revise t ⟨.join head (v :: values) underway purpose, stack⟩ more) := by
  obtain ⟨hk, htk, hparent, -⟩ := h.awaited ht hthread
  have howed : (E t).thread.owed = (k, held stack) ::
      (Thread.mk (.join head (v :: values) underway purpose) stack).owed := by
    rw [hthread]
    rfl
  have hdistinct := h.distinct t ht
  rw [howed, List.map_cons, List.nodup_cons] at hdistinct
  have hother : ∀ j ∈ live, ∀ P, j ≠ t → (k, P) ∉ (E j).thread.owed := by
    intro j hj P hne hmem
    exact hne ((h.children j hj k P hmem).2.2.1.symm.trans hparent)
  refine h.revise ht more (Finset.erase_subset k live) ?_ ?_ ?_ hdistinct.2 ?_ ?_ ?_
  · exact Finset.mem_erase.mpr ⟨(Nat.zero_lt_of_lt htk).ne, h.caller⟩
  · intro n hn
    rw [hthread]
    exact .inl hn
  · intro j P hmem
    have hmem' : (j, P) ∈ (E t).thread.owed := by
      rw [howed]
      exact List.mem_cons_of_mem _ hmem
    have hne : j ≠ k := by
      rintro rfl
      exact hdistinct.1 (List.mem_map.mpr ⟨(j, P), hmem, rfl⟩)
    exact ⟨Finset.mem_erase.mpr ⟨hne, (h.children t ht j P hmem').1⟩, hmem'⟩
  · rintro j hj P (hmem | ⟨⟨fault, hfault⟩, -⟩)
    · rw [howed] at hmem
      rcases List.mem_cons.mp hmem with heq | hmem
      · cases heq
        exact absurd rfl (Finset.mem_erase.mp hj).1
      · exact .inl hmem
    · rw [hthread] at hfault
      cases hfault
  · intro j hj hzero
    obtain ⟨-, hj⟩ := Finset.mem_erase.mp hj
    exact Finset.mem_erase.mpr ⟨h.not_parent hj hzero hgives, (h.lineage j hj hzero).1⟩
  · intro j hj hne i P hmem
    have hlive := (Finset.mem_erase.mp hj).2
    refine Finset.mem_erase.mpr ⟨?_, (h.children j hlive i P hmem).1⟩
    rintro rfl
    exact hother j hlive P hne hmem

end Collecting

section Submitting

variable {e : Value Unit} {sharing : Sharing Unit} {stack : List (Cont Unit)}

lemma mem_owed_submit {j i : Nat} {P : List Nat} (hlt : t < k) (hj : j ≠ k)
    (hthread : (E t).thread = ⟨.submit e sharing, stack⟩) :
    (i, P) ∈ (E.submit t k e sharing stack j).thread.owed ↔
      (i, P) ∈ (E j).thread.owed ∨ (j = t ∧ i = k ∧ P = held stack) := by
  by_cases hjt : j = t
  · subst hjt
    rw [Ledger.owed_submit_parent hlt.ne hthread, List.mem_cons, Prod.mk.injEq]
    tauto
  · rw [E.submit_of_ne e sharing stack hj hjt]
    tauto

lemma holds_submit {j i : Nat} {P : List Nat} (hlt : t < k) (hj : j ≠ k)
    (hthread : (E t).thread = ⟨.submit e sharing, stack⟩) (h : Holds (E j).thread i P) :
    Holds (E.submit t k e sharing stack j).thread i P := by
  rcases h with hmem | hfailed
  · exact .inl ((mem_owed_submit hlt hj hthread).mpr (.inl hmem))
  · have hjt : j ≠ t := by
      rintro rfl
      obtain ⟨⟨fault, hfault⟩, -⟩ := hfailed
      rw [hthread] at hfault
      cases hfault
    rw [E.submit_of_ne e sharing stack hj hjt]
    exact .inr hfailed

lemma submit (h : Family live E) (ht : t ∈ live) (hnew : k ∉ live) (hlt : t < k)
    (hthread : (E t).thread = ⟨.submit e sharing, stack⟩) :
    Family (insert k live) (E.submit t k e sharing stack) := by
  have hlive : ∀ {j}, j ∈ live → j ≠ k := by
    rintro j hj rfl
    exact hnew hj
  have hold : ∀ {j}, j ∈ insert k live → j ≠ k → j ∈ live :=
    fun hj hne => (Finset.mem_insert.mp hj).resolve_left hne
  have hchild := E.submit_new (t := t) (k := k) e sharing stack
  have hbase : ∀ {j}, j ∈ live → (E.submit t k e sharing stack j).base = (E j).base :=
    fun hj => E.base_submit e sharing stack (hlive hj)
  refine ⟨Finset.mem_insert_of_mem h.caller, ?_, ?_, ?_, ?_, ?_⟩
  · rw [hbase h.caller, h.root]
  · intro j hj i hi hne n hn
    by_cases hjk : j = k
    · subst hjk
      rw [hchild] at hn
      cases hn
    by_cases hik : i = k
    · subst hik
      rw [hchild]
      exact List.not_mem_nil
    rw [Ledger.stack_submit hjk hthread] at hn
    rw [Ledger.stack_submit hik hthread]
    exact h.apart j (hold hj hjk) i (hold hi hik) hne n hn
  · intro j hj
    by_cases hjk : j = k
    · subst hjk
      rw [hchild]
      exact List.nodup_nil
    by_cases hjt : j = t
    · subst hjt
      rw [Ledger.owed_submit_parent hjk hthread, List.map_cons, List.nodup_cons]
      refine ⟨?_, h.distinct j ht⟩
      intro hmem
      obtain ⟨⟨i, P⟩, howes, rfl⟩ := List.mem_map.mp hmem
      exact hnew (h.children j ht i P howes).1
    · rw [E.submit_of_ne e sharing stack hjk hjt]
      exact h.distinct j (hold hj hjk)
  · intro j hj i P hmem
    by_cases hjk : j = k
    · subst hjk
      rw [hchild] at hmem
      cases hmem
    rcases (mem_owed_submit hlt hjk hthread).mp hmem with hmem | ⟨rfl, rfl, rfl⟩
    · obtain ⟨hi, hji, hparent, hinherited⟩ := h.children j (hold hj hjk) i P hmem
      rw [E.parent_submit e sharing stack (hlive hi), hbase hi, hbase (hold hj hjk)]
      exact ⟨Finset.mem_insert_of_mem hi, hji, hparent, hinherited⟩
    · rw [hbase ht, hchild]
      exact ⟨Finset.mem_insert_self .., hlt, rfl, rfl⟩
  · intro i hi hzero
    by_cases hik : i = k
    · subst hik
      rw [hchild]
      refine ⟨Finset.mem_insert_of_mem ht, hlt, held stack, ?_, .inl ?_⟩
      · dsimp only
        rw [hbase ht]
      · exact (mem_owed_submit hlt hlt.ne hthread).mpr (.inr ⟨rfl, rfl, rfl⟩)
    · obtain ⟨hparent, hless, P, hinherited, hholds⟩ := h.lineage i (hold hi hik) hzero
      rw [E.parent_submit e sharing stack hik, hbase (hold hi hik), hbase hparent]
      exact ⟨Finset.mem_insert_of_mem hparent, hless, P, hinherited,
        holds_submit hlt (hlive hparent) hthread hholds⟩

end Submitting

end Family

end Evlis
