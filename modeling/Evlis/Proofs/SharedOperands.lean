import Evlis.Proofs.ThreadProgress

/-!
# Operands that are shared out

Handing over operands and collecting their values changes nothing about the outcome of a call:
whoever evaluates an operand, it is an operand of the same list.
-/

namespace Evlis

section Progress

variable {early : Prop} {origin : Nat → Value Unit × Env Unit} {base : List Nat}
  {stack : List (Cont Unit)} {s : State Unit} {sharing : Sharing Unit} {e : Value Unit}
  {rest : List (Value Unit)}

/-- Another way to go on, with the same outcomes. -/
lemma Progress.turn {control control' : Control Unit} (st : Standing s base stack)
    (hcontrol : control'.Within (Safe s (held stack ++ base)))
    (htasks : control'.tasks.Perm control.tasks)
    (hacts : ∀ V o, Acts early origin V o control' → Acts early origin V o control) :
    Progress early origin base ⟨control, stack⟩ s (⟨control', stack⟩, s) := by
  refine ⟨st, hcontrol, (htasks.map _).append_right _, [], (List.append_nil _).symm, ?_⟩
  rintro F hF o ⟨o₁, hnext, hunwinds⟩
  rw [Multiset.coe_nil, Outcome.after_zero]
  exact ⟨o₁, hacts _ o₁ hnext, hunwinds⟩

lemma progress_gather (st : Standing s base stack)
    (hsharing : sharing.Within (Safe s (held stack ++ base))) (none : sharing.rest = []) :
    Progress early origin base ⟨.fork sharing, stack⟩ s
      (⟨.join sharing.head [] sharing.underway.reverse sharing.purpose, stack⟩, s) := by
  refine Progress.turn st ⟨hsharing.head, nofun, ?_⟩ ?_ ?_
  · intro v hv
    exact hsharing.ready v (List.mem_reverse.mp hv)
  · exact (List.reverse_perm sharing.underway).filterMap _
  · rintro V o ⟨g, hgathers, hconcludes⟩
    refine ⟨g, ?_, hconcludes⟩
    rw [promises, none, List.map_nil, List.append_nil]
    exact hgathers

lemma progress_acquire (st : Standing s base stack)
    (hsharing : sharing.Within (Safe s (held stack ++ base))) (more : sharing.rest = e :: rest) :
    Progress early origin base ⟨.fork sharing, stack⟩ s
      (⟨.submit e { sharing with rest }, stack⟩, s) := by
  have hrest := hsharing.rest
  rw [more] at hrest
  refine Progress.turn st ⟨hrest e List.mem_cons_self, hsharing.head, hsharing.ready,
    fun e' he' => hrest e' (List.mem_cons_of_mem _ he'), hsharing.env⟩ (.refl _) ?_
  intro V o hshares
  rw [Acts, more]
  exact hshares

lemma progress_inline (allowed : early) (st : Standing s base stack)
    (hsharing : sharing.Within (Safe s (held stack ++ base))) (more : sharing.rest = e :: rest)
    (event : Event Unit) :
    Progress early origin base ⟨.fork sharing, stack⟩ s
      (Machine.await .none (.inline { sharing with rest }) e sharing.env stack (s.log event)) := by
  have hrest := hsharing.rest
  rw [more] at hrest
  have hle : ∀ n, Safe s (held stack ++ base) n → Safe (s.log event) (held stack ++ base) n :=
    fun n hn => hn.of_frames rfl
  have hwaiting : (Cont.inline { sharing with rest }).Within
      (Safe (s.log event) (held stack ++ base)) :=
    Sharing.Within.mono ⟨hsharing.head, hsharing.ready,
      fun e' he' => hrest e' (List.mem_cons_of_mem _ he'), hsharing.env⟩ hle
  have st₁ : Standing (s.log event) base stack := st.of_frames rfl
  have hserves : Serves early origin base stack (Control.fork sharing).tasks s
      (fun V o => Acts early origin V o (.fork sharing))
      (Machine.await .none (.inline { sharing with rest }) e sharing.env stack (s.log event)) := by
    refine Serves.await (st₁.wait rfl hwaiting) ((hrest e List.mem_cons_self).mono hle)
      (hsharing.env.mono hle) rfl ?_ ?_
    · intro F _ fault hsettles
      refine ⟨.error fault, ?_, .fault _ fault⟩
      rw [promises, more, List.map_cons]
      exact Gathers.fault_at allowed hsettles
    · rintro F _ v lines o hsettles ⟨g, hgathers, hconcludes⟩
      refine ⟨g.after lines, ?_, hconcludes.after lines⟩
      rw [promises, List.reverse_cons, List.map_append, List.append_assoc] at hgathers
      rw [promises, more, List.map_cons]
      exact Gathers.replace hsettles hgathers
  exact hserves.progress

section Collecting

variable {head v : Value Unit} {values : List (Value Unit)} {underway : List (Operand Unit)}
  {purpose : Purpose}

lemma Acts.collect {V : View} {operand : Operand Unit} {lines : Multiset String} {o : Outcome}
    (hfirst : Yields early origin V operand (.ok (v, lines)))
    (h : Acts early origin V o (.join head (v :: values) underway purpose)) :
    Acts early origin V (o.after lines) (.join head values (operand :: underway) purpose) := by
  obtain ⟨g, hgathers, hconcludes⟩ := h
  rcases g with fault | ⟨list, more⟩
  · cases hconcludes
    exact ⟨.error fault, .later hfirst hgathers, .fault purpose fault⟩
  · exact ⟨_, .cons hfirst hgathers, hconcludes.shift⟩

lemma progress_ready (st : Standing s base stack)
    (hcontrol : (Control.join head values (.ready v :: underway) purpose).Within
      (Safe s (held stack ++ base))) :
    Progress early origin base ⟨.join head values (.ready v :: underway) purpose, stack⟩ s
      (⟨.join head (v :: values) underway purpose, stack⟩, s) := by
  obtain ⟨hhead, hvalues, hready⟩ := hcontrol
  refine Progress.turn st ⟨hhead, ?_, fun w hw => hready w (List.mem_cons_of_mem _ hw)⟩ (.refl _) ?_
  · intro w hw
    rcases List.mem_cons.mp hw with rfl | hw
    · exact hready w List.mem_cons_self
    · exact hvalues w hw
  · intro V o hacts
    rw [← Outcome.after_zero o]
    exact Acts.collect rfl hacts

lemma progress_combine (st : Standing s base stack)
    (hcontrol : (Control.join head values [] purpose).Within (Safe s (held stack ++ base))) :
    Progress early origin base ⟨.join head values [] purpose, stack⟩ s
      (Machine.finish .none purpose (chained (values ++ [head]) .nil) stack s) := by
  obtain ⟨hhead, hvalues, -⟩ := hcontrol
  have hoperands : ∀ v ∈ values ++ [head], v.Within (Safe s (held stack ++ base)) := by
    intro v hv
    rcases List.mem_append.mp hv with hv | hv
    · exact hvalues v hv
    · rw [List.mem_singleton.mp hv]
      exact hhead
  have hserves : Serves early origin base stack (Control.join head values [] purpose).tasks s _
      (Machine.finish .none purpose (chained (values ++ [head]) .nil) stack s) :=
    Machine.serves_finish st (.chain hoperands (.atom "nil"))
  refine (hserves.imp ?_).progress
  intro F _ o hconcludes
  exact ⟨.ok (.nil, 0), .nil, hconcludes⟩

end Collecting

end Progress

section Completion

variable {early : Prop} {origin : Nat → Value Unit × Env Unit} {V : View}
  {stack : List (Cont Unit)} {o : Outcome}

/-- An operand that is handed over has the outcomes that its expression has. -/
lemma Completes.submit {e : Value Unit} {sharing : Sharing Unit} {k : Nat}
    (horigin : origin k = (e, sharing.env))
    (h : Completes early origin V
      ⟨.fork { sharing with underway := .task k :: sharing.underway }, stack⟩ o) :
    Completes early origin V ⟨.submit e sharing, stack⟩ o := by
  obtain ⟨o₁, ⟨g, hgathers, hconcludes⟩, hunwinds⟩ := h
  refine ⟨o₁, ⟨g, ?_, hconcludes⟩, hunwinds⟩
  have hyields : Yields early origin (V.mask (held stack)) (.task k) =
      fun o => Settles early (V.mask (held stack)) (.expr e sharing.env) o := by
    funext o
    rw [Yields, horigin]
  rw [promises, List.reverse_cons, List.map_append, List.append_assoc, List.map_singleton,
    hyields] at hgathers
  exact hgathers

section Collecting

variable {head v : Value Unit} {values : List (Value Unit)} {underway : List (Operand Unit)}
  {purpose : Purpose} {k : Nat}

lemma Completes.collect {lines : Multiset String}
    (hchild : Settles early (V.mask (held stack)) (.expr (origin k).1 (origin k).2)
      (.ok (v, lines)))
    (h : Completes early origin V ⟨.join head (v :: values) underway purpose, stack⟩ o) :
    Completes early origin V ⟨.join head values (.task k :: underway) purpose, stack⟩
      (o.after lines) := by
  obtain ⟨o₁, hacts, hunwinds⟩ := h
  exact ⟨o₁.after lines, Acts.collect hchild hacts, hunwinds.after lines⟩

lemma Completes.fault {fault : Fault}
    (hchild : Settles early (V.mask (held stack)) (.expr (origin k).1 (origin k).2)
      (.error fault))
    (h : Completes early origin V ⟨.fail fault, stack⟩ o) :
    Completes early origin V ⟨.join head values (.task k :: underway) purpose, stack⟩ o := by
  obtain ⟨o₁, hacts, hunwinds⟩ := h
  obtain rfl : o₁ = .error fault := hacts
  exact ⟨.error fault, ⟨.error fault, .fault hchild, .fault purpose fault⟩, hunwinds⟩

end Collecting

end Completion

end Evlis
