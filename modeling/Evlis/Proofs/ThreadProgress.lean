import Evlis.Proofs.Completion
import Evlis.Proofs.PoolSteps
import Evlis.Proofs.Trampoline

/-!
# Steps of a thread in hindsight

A thread in a pool is sure of what it can reach: besides filled frames, only the pending frames of
its own bindings and those that were pending when it was made. Under this condition, what remains
for it to do after a step is what remained before, less the lines that the step has printed.
-/

namespace Evlis

/-- All that operands being shared out refer to belongs to a set. -/
structure Sharing.Within (X : Nat → Prop) (sharing : Sharing Unit) : Prop where
  head : sharing.head.Within X
  ready : ∀ v, .ready v ∈ sharing.underway → v.Within X
  rest : ∀ e ∈ sharing.rest, e.Within X
  env : EnvWithin X sharing.env

def Cont.Within (X : Nat → Prop) : Cont Unit → Prop
  | .operand values rest env _ => (∀ v ∈ values, v.Within X) ∧ rest.Within X ∧ EnvWithin X env
  | .branch consequent alternative env =>
    consequent.Within X ∧ alternative.Within X ∧ EnvWithin X env
  | .second e env => e.Within X ∧ EnvWithin X env
  | .bind name b => name.Within X ∧ b.Within X
  | .share rest env _ => rest.Within X ∧ EnvWithin X env
  | .inline sharing => sharing.Within X

def Control.Within (X : Nat → Prop) : Control Unit → Prop
  | .enter e env => e.Within X ∧ EnvWithin X env
  | .bounce e env => e.Within X ∧ EnvWithin X env
  | .give v => v.Within X
  | .fail _ => True
  | .fork sharing => sharing.Within X
  | .submit e sharing => e.Within X ∧ sharing.Within X
  | .join head values underway _ =>
    head.Within X ∧ (∀ v ∈ values, v.Within X) ∧ ∀ v, .ready v ∈ underway → v.Within X

/-- Every waiting evaluation refers to the frames that it may know of; these depend on the frames
that are held where it waits. -/
def StackWithin (K : List Nat → Nat → Prop) : List (Cont Unit) → Prop
  | [] => True
  | cont :: stack => cont.Within (K (held (cont :: stack))) ∧ StackWithin K stack

section Mono

variable {X Y : Nat → Prop}

lemma Sharing.Within.mono {sharing : Sharing Unit} (h : sharing.Within X)
    (hle : ∀ n, X n → Y n) : sharing.Within Y :=
  ⟨h.head.mono hle, fun v hv => (h.ready v hv).mono hle, fun e he => (h.rest e he).mono hle,
    h.env.mono hle⟩

lemma Cont.Within.mono {cont : Cont Unit} (h : cont.Within X) (hle : ∀ n, X n → Y n) :
    cont.Within Y := by
  cases cont with
  | operand values rest env purpose =>
    exact ⟨fun v hv => (h.1 v hv).mono hle, h.2.1.mono hle, h.2.2.mono hle⟩
  | branch consequent alternative env => exact ⟨h.1.mono hle, h.2.1.mono hle, h.2.2.mono hle⟩
  | second e env => exact ⟨h.1.mono hle, h.2.mono hle⟩
  | bind name b => exact ⟨h.1.mono hle, h.2.mono hle⟩
  | share rest env purpose => exact ⟨h.1.mono hle, h.2.mono hle⟩
  | inline sharing => exact Sharing.Within.mono h hle

lemma Control.Within.mono {control : Control Unit} (h : control.Within X)
    (hle : ∀ n, X n → Y n) : control.Within Y := by
  cases control with
  | enter e env => exact ⟨h.1.mono hle, h.2.mono hle⟩
  | bounce e env => exact ⟨h.1.mono hle, h.2.mono hle⟩
  | give v => exact Value.Within.mono h hle
  | fail fault => trivial
  | fork sharing => exact Sharing.Within.mono h hle
  | submit e sharing => exact ⟨h.1.mono hle, h.2.mono hle⟩
  | join head values underway purpose =>
    exact ⟨h.1.mono hle, fun v hv => (h.2.1 v hv).mono hle, fun v hv => (h.2.2 v hv).mono hle⟩

lemma held_subset (cont : Cont Unit) (stack : List (Cont Unit)) :
    ∀ n ∈ held stack, n ∈ held (cont :: stack) := by
  intro n hn
  cases hb : cont.binding? with
  | none => rwa [held_cons_of_none hb]
  | some entry =>
    cases cont with
    | bind name b =>
      rw [held_bind]
      exact List.mem_cons_of_mem _ hn
    | _ => cases hb

lemma StackWithin.mono {K K' : List Nat → Nat → Prop} {stack : List (Cont Unit)}
    (h : StackWithin K stack)
    (hle : ∀ P, (∀ n ∈ P, n ∈ held stack) → ∀ n, K P n → K' P n) : StackWithin K' stack := by
  induction stack with
  | nil => trivial
  | cons cont stack ih =>
    refine ⟨h.1.mono (hle _ fun _ hn => hn), ih h.2 ?_⟩
    intro P hP
    exact hle P fun n hn => held_subset cont stack n (hP n hn)

end Mono

/-- A stack whose evaluations can reach no pending frames but those that it holds and those in
`base`; all of these are pending, and those it holds are its own. -/
structure Standing (s : State Unit) (base : List Nat) (stack : List (Cont Unit)) : Prop where
  within : StackWithin (fun P => Safe s (P ++ base)) stack
  pending : ∀ n ∈ held stack ++ base, s.frames[n]? = some .pending
  distinct : (held stack).Nodup
  own : ∀ n ∈ held stack, n ∉ base

namespace Standing

variable {s s' : State Unit} {base : List Nat} {stack : List (Cont Unit)}

lemma of_change (h : Standing s base stack) (hchange : ∀ k < s.frames.size,
      s'.frames[k]? = s.frames[k]? ∨
        (s.frames[k]? = some .pending ∧ k ∉ held stack ++ base)) :
    Standing s' base stack := by
  refine ⟨?_, ?_, h.distinct, h.own⟩
  · refine h.within.mono ?_
    intro P hP n hn
    refine Safe.of_change hn ?_
    intro k hk
    rcases hchange k hk with hsame | ⟨hpending, hnot⟩
    · exact .inl hsame
    · refine .inr ⟨hpending, fun hmem => hnot ?_⟩
      rcases List.mem_append.mp hmem with hmem | hmem
      · exact List.mem_append_left _ (hP k hmem)
      · exact List.mem_append_right _ hmem
  · intro n hn
    have hpending := h.pending n hn
    rcases hchange n (lt_size_of_getElem? hpending) with hsame | ⟨-, hnot⟩
    · rw [hsame, hpending]
    · exact absurd hn hnot

lemma of_frames (h : Standing s base stack) (hframes : s'.frames = s.frames) :
    Standing s' base stack :=
  h.of_change fun k _ => .inl (by rw [hframes])

lemma push (h : Standing s base stack) {frame : Frame Unit}
    (hframes : s'.frames = s.frames.push frame) : Standing s' base stack := by
  refine h.of_change fun k hk => .inl ?_
  rw [hframes, getElem?_push_of_lt hk]

lemma wait (h : Standing s base stack) {cont : Cont Unit} (hnone : cont.binding? = none)
    (hcont : cont.Within (Safe s (held stack ++ base))) : Standing s base (cont :: stack) := by
  have hheld := held_cons_of_none hnone stack
  refine ⟨⟨?_, h.within⟩, ?_, ?_, ?_⟩
  · rwa [hheld]
  · rw [hheld]
    exact h.pending
  · rw [hheld]
    exact h.distinct
  · rw [hheld]
    exact h.own

lemma bind (h : Standing s base stack) {name : Value Unit} {b : Binding Unit}
    (hname : name.Within (Safe s (b.frame :: (held stack ++ base))))
    (hb : b.Within (Safe s (b.frame :: (held stack ++ base))))
    (hpending : s.frames[b.frame]? = some .pending) (hheld : b.frame ∉ held stack)
    (hbase : b.frame ∉ base) : Standing s base (.bind name b :: stack) := by
  have hbind := held_bind name b stack
  refine ⟨⟨?_, h.within⟩, ?_, ?_, ?_⟩
  · dsimp only
    rw [hbind]
    exact ⟨hname, hb⟩
  · rw [hbind]
    intro n hn
    rcases List.mem_cons.mp hn with rfl | hn
    · exact hpending
    · exact h.pending n hn
  · rw [hbind]
    exact List.nodup_cons.mpr ⟨hheld, h.distinct⟩
  · rw [hbind]
    intro n hn
    rcases List.mem_cons.mp hn with rfl | hn
    · exact hbase
    · exact h.own n hn

lemma pop {cont : Cont Unit} (h : Standing s base (cont :: stack)) : Standing s base stack := by
  refine ⟨h.within.2, ?_, ?_, fun n hn => h.own n (held_subset cont stack n hn)⟩
  · intro n hn
    refine h.pending n ?_
    rcases List.mem_append.mp hn with hn | hn
    · exact List.mem_append_left _ (held_subset cont stack n hn)
    · exact List.mem_append_right _ hn
  · cases cont with
    | bind name b =>
      have hdistinct := h.distinct
      rw [held_bind] at hdistinct
      exact (List.nodup_cons.mp hdistinct).2
    | _ => exact h.distinct

end Standing

/-- The tasks that the evaluations on a stack will wait for, each with the frames that are held
where they wait for it. -/
def owedBy : List (Cont Unit) → List (Nat × List Nat)
  | [] => []
  | cont :: stack => cont.tasks.map (·, held stack) ++ owedBy stack

def Thread.owed (thread : Thread Unit) : List (Nat × List Nat) :=
  thread.control.tasks.map (·, held thread.stack) ++ owedBy thread.stack

section Serving

variable (early : Prop) (origin : Nat → Value Unit × Env Unit) (base : List Nat)

/-- A step has been made toward an outcome that `A` describes: what remains to be done gives such an
outcome to the evaluations in `stack`. -/
structure Serves (stack : List (Cont Unit)) (tasks : List Nat) (s : State Unit)
    (A : View → Outcome → Prop) (r : Thread Unit × State Unit) : Prop where
  standing : Standing r.2 base r.1.stack
  within : r.1.control.Within (Safe r.2 (held r.1.stack ++ base))
  owed : r.1.owed = tasks.map (·, held stack) ++ owedBy stack
  back : ∃ lines, r.2.printed.toList = s.printed.toList ++ lines ∧
    ∀ F : View, F.Foresees r.2 → ∀ o, Completes early origin (F.mask base) r.1 o →
      ∃ o₁, A (F.mask (held stack ++ base)) o₁ ∧
        Unwinds early origin (F.mask base) stack o₁ (o.after lines)

end Serving

namespace Serves

variable {early : Prop} {origin : Nat → Value Unit × Env Unit} {base : List Nat}
  {stack : List (Cont Unit)} {s s' : State Unit} {A B : View → Outcome → Prop}

lemma imp {tasks : List Nat} {r : Thread Unit × State Unit}
    (h : Serves early origin base stack tasks s A r)
    (himp : ∀ F : View, F.Foresees r.2 → ∀ o, A (F.mask (held stack ++ base)) o →
      B (F.mask (held stack ++ base)) o) : Serves early origin base stack tasks s B r := by
  obtain ⟨lines, hlines, hback⟩ := h.back
  refine ⟨h.standing, h.within, h.owed, lines, hlines, ?_⟩
  intro F hF o ho
  obtain ⟨o₁, hA, hunwinds⟩ := hback F hF o ho
  exact ⟨o₁, himp F hF o₁ hA, hunwinds⟩

lemma of_printed {tasks : List Nat} {r : Thread Unit × State Unit}
    (h : Serves early origin base stack tasks s' A r) (hprinted : s'.printed = s.printed) :
    Serves early origin base stack tasks s A r :=
  ⟨h.standing, h.within, h.owed, hprinted ▸ h.back⟩

lemma turn {control : Control Unit} (st : Standing s base stack)
    (hcontrol : control.Within (Safe s (held stack ++ base))) :
    Serves early origin base stack control.tasks s (fun V o => Acts early origin V o control)
      (⟨control, stack⟩, s) := by
  refine ⟨st, hcontrol, rfl, [], (List.append_nil _).symm, ?_⟩
  rintro F hF o ⟨o₁, hacts, hunwinds⟩
  dsimp only at hacts hunwinds
  rw [← View.mask_append] at hacts
  refine ⟨o₁, hacts, ?_⟩
  rwa [Multiset.coe_nil, Outcome.after_zero]

lemma give {v : Value Unit} {lines : List String} (st : Standing s' base stack)
    (hv : v.Within (Safe s' (held stack ++ base)))
    (hlines : s'.printed.toList = s.printed.toList ++ lines)
    (hA : ∀ F : View, F.Foresees s' → A (F.mask (held stack ++ base)) (.ok (v, lines))) :
    Serves early origin base stack [] s A (Machine.give v stack s') := by
  refine ⟨st, hv, rfl, lines, hlines, ?_⟩
  rintro F hF o ⟨o₁, hacts, hunwinds⟩
  obtain rfl : o₁ = .ok (v, 0) := hacts
  refine ⟨.ok (v, lines), hA F hF, ?_⟩
  have hafter := hunwinds.after (lines : Multiset String)
  rwa [Outcome.after_ok, add_zero] at hafter

lemma fail {fault : Fault} {lines : List String} (st : Standing s' base stack)
    (hlines : s'.printed.toList = s.printed.toList ++ lines)
    (hA : ∀ F : View, F.Foresees s' → A (F.mask (held stack ++ base)) (.error fault)) :
    Serves early origin base stack [] s A (Machine.fail fault stack s') := by
  refine ⟨st, trivial, rfl, lines, hlines, ?_⟩
  rintro F hF o ⟨o₁, hacts, hunwinds⟩
  obtain rfl : o₁ = .error fault := hacts
  refine ⟨.error fault, hA F hF, ?_⟩
  exact hunwinds.after (lines : Multiset String)

lemma bounce {e : Value Unit} {env : Env Unit} (st : Standing s' base stack)
    (he : e.Within (Safe s' (held stack ++ base)))
    (henv : EnvWithin (Safe s' (held stack ++ base)) env) (hprinted : s'.printed = s.printed)
    (hA : ∀ F : View, F.Foresees s' → ∀ o,
      Settles early (F.mask (held stack ++ base)) (.expr e env) o →
        A (F.mask (held stack ++ base)) o) :
    Serves early origin base stack [] s A (Machine.bounce e env stack s') := by
  have hlines : s'.printed.toList = s.printed.toList ++ [] := by rw [hprinted, List.append_nil]
  refine ⟨st, ⟨he, henv⟩, rfl, [], hlines, ?_⟩
  rintro F hF o ⟨o₁, hacts, hunwinds⟩
  have hsettles : Settles early ((F.mask base).mask (held stack)) (.expr e env) o₁ := hacts
  rw [← View.mask_append] at hsettles
  refine ⟨o₁, hA F hF o₁ hsettles, ?_⟩
  rw [Multiset.coe_nil, Outcome.after_zero]
  exact hunwinds

/-- An inner evaluation settles `A` by its fault, or by what the evaluation waiting for it makes of
its value. -/
lemma await {cont : Cont Unit} {e : Value Unit} {env : Env Unit}
    (st : Standing s' base (cont :: stack))
    (he : e.Within (Safe s' (held (cont :: stack) ++ base)))
    (henv : EnvWithin (Safe s' (held (cont :: stack) ++ base)) env)
    (hprinted : s'.printed = s.printed)
    (hfault : ∀ F : View, F.Foresees s' → ∀ fault,
      Settles early (F.mask (held (cont :: stack) ++ base)) (.expr e env) (.error fault) →
        A (F.mask (held stack ++ base)) (.error fault))
    (hok : ∀ F : View, F.Foresees s' → ∀ v lines o,
      Settles early (F.mask (held (cont :: stack) ++ base)) (.expr e env) (.ok (v, lines)) →
        Answers early origin (F.mask (held stack ++ base)) v o cont →
          A (F.mask (held stack ++ base)) (o.after lines)) :
    Serves early origin base stack cont.tasks s A
      (Machine.await .none cont e env stack s') := by
  have hlines : s'.printed.toList = s.printed.toList ++ [] := by rw [hprinted, List.append_nil]
  refine ⟨st, ⟨he, henv⟩, rfl, [], hlines, ?_⟩
  rintro F hF o ⟨o₁, hacts, hunwinds⟩
  have hsettles : Settles early ((F.mask base).mask (held (cont :: stack))) (.expr e env) o₁ :=
    hacts
  rw [← View.mask_append] at hsettles
  rw [Multiset.coe_nil, Outcome.after_zero]
  cases hunwinds with
  | fault _ fault => exact ⟨.error fault, hfault F hF fault hsettles, .fault stack fault⟩
  | @cons _ _ v lines o₂ o' answer others =>
    rw [← View.mask_append] at answer
    exact ⟨o₂.after lines, hok F hF v lines o₂ hsettles answer, others.after lines⟩

end Serves

/-! ## One lemma for each part of a step -/

/-- The operands that are to be shared out are the elements of a list. -/
def Cont.IsListed : Cont Unit → Prop
  | .share rest _ _ => rest.ending = .nil
  | _ => True

/-- A value in front of a list of operands may be counted among them. -/
lemma Concludes.shift {early : Prop} {V : View} {front : List (Value Unit)} {purpose : Purpose}
    {v list : Value Unit} {lines more : Multiset String} {o : Outcome}
    (h : Concludes early V (v :: front) purpose (.ok (list, more)) o) :
    Concludes early V front purpose (.ok (.pair () v list, lines + more)) (o.after lines) := by
  cases h with
  | collect => exact .collect _ _
  | call result =>
    rw [Outcome.after_after]
    exact .call result

namespace Machine

variable {early : Prop} {origin : Nat → Value Unit × Env Unit} {base : List Nat}
  {stack : List (Cont Unit)} {s : State Unit}

lemma serves_primitive {name : String} {arguments : Value Unit} (st : Standing s base stack)
    (harguments : arguments.Within (Safe s (held stack ++ base))) :
    Serves early origin base stack [] s
      (fun V o => Settles early V (.application (.pair () (.atom name) arguments)) o)
      (apply .none (.pair () (.atom name) arguments) stack s) := by
  have hframes := Primitive.frames_apply .none name arguments s
  obtain ⟨-, lines, hlines, -⟩ := Primitive.apply_similar .none name harguments s s
  have hsettles : ∀ V : View, Settles early V (.application (.pair () (.atom name) arguments))
      ((Primitive.apply .none name arguments s).1.map fun v => (v, (lines : Multiset String))) :=
    fun V => .primitive hlines
  have hwithin : ∀ v, (Primitive.apply .none name arguments s).1 = .ok v →
      v.Within (Safe s (held stack ++ base)) := fun v => within_of_apply harguments
  rw [apply]
  generalize Primitive.apply .none name arguments s = r at hframes hlines hsettles hwithin ⊢
  obtain ⟨outcome, s'⟩ := r
  have st' := st.of_frames hframes
  cases outcome with
  | ok v =>
    have hv := (hwithin v rfl).mono fun n hn => Safe.of_frames hn hframes
    exact Serves.give st' hv hlines fun F _ => hsettles _
  | error fault => exact Serves.fail st' hlines fun F _ => hsettles _

lemma serves_closure {lambda formals body arguments : Value Unit} {env : Env Unit}
    (st : Standing s base stack) (hformals : formals.Within (Safe s (held stack ++ base)))
    (hbody : body.Within (Safe s (held stack ++ base)))
    (henv : EnvWithin (Safe s (held stack ++ base)) env)
    (harguments : arguments.Within (Safe s (held stack ++ base))) :
    Serves early origin base stack [] s
      (fun V o => Settles early V
        (.application (.pair () (.closure () lambda formals body env) arguments)) o)
      (apply .none (.pair () (.closure () lambda formals body env) arguments) stack s) := by
  rw [apply, extendEnv]
  by_cases fits : formals.length = arguments.length
  · rw [if_pos fits]
    have hframes : (s.extend (.filled formals arguments) env).2.frames =
        s.frames.push (.filled formals arguments) := rfl
    have hbody' := hbody.mono fun n hn => Safe.push hn hframes
    have henv' := (henv.mono fun n hn => Safe.push hn hframes).cons
      (Safe.new_filled hformals harguments hframes)
    refine Serves.bounce (st.push hframes) hbody' henv' rfl ?_
    intro F hF o hsettles
    refine Settles.body fits ?_ hsettles
    have hnot : s.frames.size ∉ held stack ++ base := by
      intro hmem
      exact Nat.lt_irrefl _ (lt_size_of_getElem? (st.pending _ hmem))
    rw [View.mask_of_not_mem hnot]
    exact hF s.frames.size formals arguments Array.getElem?_push_size
  · rw [if_neg fits]
    exact Serves.fail st (List.append_nil _).symm fun F _ => .arity fits

lemma serves_apply {call : Value Unit} (st : Standing s base stack)
    (hcall : call.Within (Safe s (held stack ++ base))) :
    Serves early origin base stack [] s (fun V o => Settles early V (.application call) o)
      (apply .none call stack s) := by
  have hmisfit {function : Value Unit} (found : call.misfit? = some function) :
      Serves early origin base stack [] s (fun V o => Settles early V (.application call) o)
        (Machine.fail (function.blame .none .illegalFunction) stack s) :=
    Serves.fail st (List.append_nil _).symm fun F hF => .misfit found
  cases hcall with
  | pair hfunction harguments =>
    cases hfunction with
    | atom name => exact serves_primitive st harguments
    | closure hlambda hformals hbody henv =>
      exact serves_closure st hformals hbody henv.2 harguments
    | pair hcar hcdr => exact hmisfit rfl
    | «foreign» n => exact hmisfit rfl
  | atom name => exact hmisfit rfl
  | closure hlambda hformals hbody henv => exact hmisfit rfl
  | «foreign» n => exact hmisfit rfl

lemma serves_finish {purpose : Purpose} {front : List (Value Unit)} {list : Value Unit}
    (st : Standing s base stack)
    (hoperands : (chained front list).Within (Safe s (held stack ++ base))) :
    Serves early origin base stack [] s
      (fun V o => Concludes early V front purpose (.ok (list, 0)) o)
      (finish .none purpose (chained front list) stack s) := by
  cases purpose with
  | collect =>
    exact Serves.give st hoperands (List.append_nil _).symm fun F _ => .collect list 0
  | call =>
    refine (serves_apply st hoperands).imp ?_
    intro F _ o result
    rw [← Outcome.after_zero o]
    exact .call result

lemma serves_noOperand {values : List (Value Unit)} {tail : Value Unit} {env : Env Unit}
    {purpose : Purpose} (atEnd : tail.ending = tail) (st : Standing s base stack)
    (hvalues : ∀ v ∈ values, v.Within (Safe s (held stack ++ base))) :
    Serves early origin base stack [] s
      (fun V o => ∃ g, Settles early V (.operands tail env) g ∧
        Concludes early V values purpose g o)
      (nextOperand .none values tail env purpose stack s) := by
  rw [nextOperand_of_atEnd atEnd]
  cases htail : tail.isNil with
  | true =>
    have hnil : tail = .nil := by
      cases tail with
      | atom name =>
        have hname : name = "nil" := by simpa [Value.isNil] using htail
        rw [hname]
        rfl
      | _ => cases htail
    rw [if_pos rfl, State.chain_unit, hnil]
    refine (serves_finish st (.chain hvalues (.atom "nil"))).imp ?_
    intro F _ o hconcludes
    exact ⟨.ok (.nil, 0), .noOperands, hconcludes⟩
  | false =>
    rw [if_neg Bool.false_ne_true]
    refine Serves.fail st (List.append_nil _).symm fun F _ => ?_
    exact ⟨_, .improper atEnd htail, .fault purpose _⟩

/-- The first of some operands is evaluated, and the others are settled by whoever waits for it. -/
lemma serves_operand {cont : Cont Unit} {values : List (Value Unit)} {e rest : Value Unit}
    {env : Env Unit} {purpose : Purpose} (hnone : cont.binding? = none) (htasks : cont.tasks = [])
    (hanswer : ∀ V v o, Answers early origin V v o cont →
      ∃ g, Settles early V (.operands rest env) g ∧ Concludes early V (v :: values) purpose g o)
    (st : Standing s base stack) (hcont : cont.Within (Safe s (held stack ++ base)))
    (he : e.Within (Safe s (held stack ++ base)))
    (henv : EnvWithin (Safe s (held stack ++ base)) env) :
    Serves early origin base stack [] s
      (fun V o => ∃ g, Settles early V (.operands (.pair () e rest) env) g ∧
        Concludes early V values purpose g o)
      (await .none cont e env stack s) := by
  have hheld := held_cons_of_none hnone stack
  have hserves : Serves early origin base stack cont.tasks s
      (fun V o => ∃ g, Settles early V (.operands (.pair () e rest) env) g ∧
        Concludes early V values purpose g o)
      (await .none cont e env stack s) := by
    refine Serves.await (st.wait hnone hcont) (by rwa [hheld]) (by rwa [hheld]) rfl ?_ ?_
    · intro F _ fault hsettles
      rw [hheld] at hsettles
      exact ⟨.error fault, .operandFault hsettles, .fault purpose fault⟩
    · intro F _ v lines o hsettles hanswers
      rw [hheld] at hsettles
      obtain ⟨g, hrest, hconcludes⟩ := hanswer _ v o hanswers
      rcases g with fault | ⟨list, more⟩
      · cases hconcludes
        exact ⟨.error fault, .laterFault hsettles hrest, .fault purpose fault⟩
      · exact ⟨_, .operand hsettles hrest, hconcludes.shift⟩
  rwa [htasks] at hserves

lemma serves_nextOperand {values : List (Value Unit)} {rest : Value Unit} {env : Env Unit}
    {purpose : Purpose} (st : Standing s base stack)
    (hvalues : ∀ v ∈ values, v.Within (Safe s (held stack ++ base)))
    (hrest : rest.Within (Safe s (held stack ++ base)))
    (henv : EnvWithin (Safe s (held stack ++ base)) env) :
    Serves early origin base stack [] s
      (fun V o => ∃ g, Settles early V (.operands rest env) g ∧
        Concludes early V values purpose g o)
      (nextOperand .none values rest env purpose stack s) := by
  cases hrest with
  | pair he hrest =>
    exact serves_operand rfl rfl (fun V v o h => h) st ⟨hvalues, hrest, henv⟩ he henv
  | atom name => exact serves_noOperand rfl st hvalues
  | closure hlambda hformals hbody hkept => exact serves_noOperand rfl st hvalues
  | «foreign» n => exact serves_noOperand rfl st hvalues

lemma serves_operands {exprs : Value Unit} {env : Env Unit} {purpose : Purpose}
    (st : Standing s base stack) (hexprs : exprs.Within (Safe s (held stack ++ base)))
    (henv : EnvWithin (Safe s (held stack ++ base)) env) :
    Serves early origin base stack [] s
      (fun V o => ∃ g, Settles early V (.operands exprs env) g ∧
        Concludes early V [] purpose g o)
      (operands .none .shared exprs env purpose stack s) := by
  cases hexprs with
  | pair he hrest =>
    exact serves_operand rfl rfl (fun V v o h => h) st ⟨hrest, henv⟩ he henv
  | atom name => exact serves_noOperand rfl st nofun
  | closure hlambda hformals hbody hkept => exact serves_noOperand rfl st nofun
  | «foreign» n => exact serves_noOperand rfl st nofun

lemma serves_fill {b : Binding Unit} (st : Standing s base stack)
    (hb : b.Within (Safe s (b.frame :: (held stack ++ base))))
    (hpending : s.frames[b.frame]? = some .pending) (hheld : b.frame ∉ held stack)
    (hbase : b.frame ∉ base) (hnext : b.next .none = .ok none) :
    Serves early origin base stack [] s (fun V o => Settles early V (.bindings b) o)
      (nextBinding .none b stack s) := by
  have hfill : s.fill b.frame b.names b.values = .ok { s with
      frames := s.frames.setIfInBounds b.frame (.filled b.names b.values) } := by
    rw [State.fill, hpending]
  rw [nextBinding_eq, hnext]
  dsimp only
  rw [hfill]
  dsimp only
  generalize hs' : State.log (.frameFilled b.names) { s with
    frames := s.frames.setIfInBounds b.frame (.filled b.names b.values) } = s'
  have hframes : s'.frames = s.frames.setIfInBounds b.frame (.filled b.names b.values) := by
    rw [← hs']
    rfl
  have hprinted : s'.printed = s.printed := by
    rw [← hs']
    rfl
  have hnot : b.frame ∉ held stack ++ base := by
    intro hmem
    exact (List.mem_append.mp hmem).elim hheld hbase
  have hle : ∀ n, Safe s (b.frame :: (held stack ++ base)) n → Safe s' (held stack ++ base) n :=
    fun n hn => hn.fill hpending hb.names hb.values hframes
  have st' : Standing s' base stack := by
    refine st.of_change ?_
    intro k _
    by_cases hk : b.frame = k
    · subst hk
      exact .inr ⟨hpending, hnot⟩
    · rw [hframes, Array.getElem?_setIfInBounds_ne hk]
      exact .inl rfl
  refine Serves.bounce st' (hb.body.mono hle) (hb.env.mono hle) hprinted ?_
  intro F hF o hsettles
  refine .fill hnext ?_ hsettles
  rw [View.mask_of_not_mem hnot]
  refine hF b.frame b.names b.values ?_
  rw [hframes, Array.getElem?_setIfInBounds_self_of_lt (lt_size_of_getElem? hpending)]

/-- The next binding is evaluated with the frame hidden, or the frame is filled. -/
lemma serves_nextBinding {b : Binding Unit} (st : Standing s base stack)
    (hb : b.Within (Safe s (b.frame :: (held stack ++ base))))
    (hpending : s.frames[b.frame]? = some .pending) (hheld : b.frame ∉ held stack)
    (hbase : b.frame ∉ base) :
    Serves early origin base stack [] s (fun V o => Settles early V (.bindings b) o)
      (nextBinding .none b stack s) := by
  cases hnext : b.next .none with
  | error fault =>
    rw [nextBinding_eq, hnext]
    exact Serves.fail st (List.append_nil _).symm fun F _ => .malformed hnext
  | ok found =>
    cases found with
    | none => exact serves_fill st hb hpending hheld hbase hnext
    | some parts =>
      obtain ⟨name, e, rest⟩ := parts
      rw [nextBinding_eq, hnext]
      obtain ⟨hname, he, hrest⟩ := hb.next hnext
      have heq : held (.bind name { b with rest } :: stack) ++ base =
          b.frame :: (held stack ++ base) := by rw [held_bind, List.cons_append]
      have hhidden : ∀ F : View, F.mask (held (.bind name { b with rest } :: stack) ++ base) =
          (F.mask (held stack ++ base)).mask [b.frame] := by
        intro F
        rw [heq]
        exact F.mask_append [b.frame] (held stack ++ base)
      have st' : Standing s base (.bind name { b with rest } :: stack) :=
        st.bind hname ⟨hb.names, hb.values, hrest, hb.body, hb.env⟩ hpending hheld hbase
      refine Serves.await st' (by rw [heq]; exact he) (by rw [heq]; exact hb.env) rfl ?_ ?_
      · intro F _ fault hsettles
        rw [hhidden] at hsettles
        exact .bindFault hnext hsettles
      · intro F _ v lines o hsettles hanswers
        rw [hhidden] at hsettles
        exact .bind hnext hsettles hanswers

lemma serves_letrec {bs body : Value Unit} {env : Env Unit} (st : Standing s base stack)
    (hbs : bs.Within (Safe s (held stack ++ base)))
    (hbody : body.Within (Safe s (held stack ++ base)))
    (henv : EnvWithin (Safe s (held stack ++ base)) env) :
    Serves early origin base stack [] s
      (fun V o => Settles early V
        (.bindings ⟨.nil, .nil, bs, body, ⟨(), s.frames.size⟩ :: env, s.frames.size⟩) o)
      (nextBinding .none (s.suspend bs body env).1 stack (s.suspend bs body env).2) := by
  have hframes : (s.suspend bs body env).2.frames = s.frames.push .pending := rfl
  have hnot : s.frames.size ∉ held stack ++ base := fun hmem =>
    Nat.lt_irrefl _ (lt_size_of_getElem? (st.pending _ hmem))
  have hle : ∀ n, Safe s (held stack ++ base) n →
      Safe (s.suspend bs body env).2 (s.frames.size :: (held stack ++ base)) n :=
    fun n hn => (hn.push hframes).weaken fun k hk => List.mem_cons_of_mem _ hk
  have hwithin : (s.suspend bs body env).1.Within
      (Safe (s.suspend bs body env).2 (s.frames.size :: (held stack ++ base))) :=
    ⟨.atom "nil", .atom "nil", hbs.mono hle, hbody.mono hle,
      .cons (Safe.new_pending hframes) (henv.mono hle)⟩
  have hloop : Serves early origin base stack [] (s.suspend bs body env).2 _
      (nextBinding .none (s.suspend bs body env).1 stack (s.suspend bs body env).2) :=
    serves_nextBinding (st.push hframes) hwithin Array.getElem?_push_size
      (fun hmem => hnot (List.mem_append_left _ hmem))
      (fun hmem => hnot (List.mem_append_right _ hmem))
  exact hloop.of_printed rfl

lemma foresees_of_changes {F : View} {r : Thread Unit × State Unit}
    (h : Changes .none stack s r) (hF : F.Foresees r.2) : F.Foresees s :=
  fun n names values hn => hF n names values (h.filled_persists hn)

lemma serves_evaluate {e : Value Unit} {env : Env Unit} (st : Standing s base stack)
    (he : e.Within (Safe s (held stack ++ base)))
    (henv : EnvWithin (Safe s (held stack ++ base)) env) :
    Serves early origin base stack [] s (fun V o => Settles early V (.expr e env) o)
      (evaluate .none .shared e env stack s) := by
  have hpast : ∀ F : View, F.Foresees (evaluate .none .shared e env stack s).2 → F.Foresees s :=
    fun F => foresees_of_changes (changes_evaluate .none .shared e env stack s)
  have hknown : ∀ F : View, F.Foresees (evaluate .none .shared e env stack s).2 →
      Demand.ofExpr .none ((F.mask (held stack ++ base)).lookup env) e =
        Demand.ofExpr .none (s.lookup .none env) e := by
    intro F hF
    rw [(hpast F hF).lookup_eq st.pending henv]
  have hself := demand_self he henv
  rw [evaluate_eq_pursue] at hpast hknown ⊢
  generalize Demand.ofExpr .none (s.lookup .none env) e = demand at hpast hknown hself ⊢
  cases demand with
  | done outcome =>
    cases outcome with
    | ok v =>
      cases hself with
      | done hlike =>
        cases hlike with
        | ok hv =>
          exact Serves.give st hv (List.append_nil _).symm fun F hF => .done (hknown F hF)
    | error fault => exact Serves.fail st (List.append_nil _).symm fun F hF => .done (hknown F hF)
  | closure tail formals body =>
    cases hself with
    | closure htail hformals hbody =>
      have hv := Value.Within.closure (.pair (.atom "lambda") htail) hformals hbody henv
      exact Serves.give st hv (List.append_nil _).symm fun F hF => .closure (hknown F hF)
  | operands exprs purpose =>
    cases hself with
    | operands _ hexprs =>
      refine (serves_operands st hexprs henv).imp ?_
      rintro F hF o ⟨g, hsettles, hconcludes⟩
      cases hconcludes with
      | fault purpose fault =>
        cases purpose with
        | collect => exact .collect (hknown F hF) hsettles
        | call => exact .callFault (hknown F hF) hsettles
      | collect list lines => exact .collect (hknown F hF) hsettles
      | call result => exact .call (hknown F hF) hsettles result
  | branch c a b =>
    cases hself with
    | branch hc ha hb =>
      have st' : Standing s base (.branch a b env :: stack) := st.wait rfl ⟨ha, hb, henv⟩
      refine Serves.await st' hc henv rfl ?_ ?_
      · intro F hF fault hsettles
        exact .branchFault (hknown F hF) hsettles
      · intro F hF v lines o hsettles hanswers
        exact .branch (hknown F hF) hsettles hanswers
  | second a b =>
    cases hself with
    | second ha hb =>
      have st' : Standing s base (.second b env :: stack) := st.wait rfl ⟨hb, henv⟩
      refine Serves.await st' ha henv rfl ?_ ?_
      · intro F hF fault hsettles
        exact .secondFault (hknown F hF) hsettles
      · intro F hF v lines o hsettles hanswers
        exact .second (hknown F hF) hsettles hanswers
  | letrec bs body =>
    cases hself with
    | letrec hbs hbody =>
      refine (serves_letrec st hbs hbody henv).imp ?_
      intro F hF o hsettles
      exact .letrec (hknown F hF) ((hpast F hF).apart he henv) hsettles

lemma serves_share {rest v : Value Unit} {env : Env Unit} {purpose : Purpose}
    (hlisted : early ∨ rest.ending = .nil) (st : Standing s base stack)
    (hrest : rest.Within (Safe s (held stack ++ base)))
    (henv : EnvWithin (Safe s (held stack ++ base)) env)
    (hv : v.Within (Safe s (held stack ++ base))) :
    Serves early origin base stack [] s
      (fun V o => Answers early origin V v o (.share rest env purpose))
      (resume .none (.share rest env purpose) v stack s) := by
  rw [resume]
  cases hlist : rest.toList .none with
  | error fault =>
    refine Serves.fail st (List.append_nil _).symm fun F _ => ?_
    rw [Value.toList] at hlist
    split at hlist
    · cases hlist
    · rename_i hending
      cases hlist
      rcases hlisted with allowed | hproper
      · exact ⟨_, settles_improper allowed (Bool.eq_false_iff.mpr hending), .fault purpose _⟩
      · rw [hproper] at hending
        exact absurd rfl hending
  | ok exprs =>
    have hsharing : (Control.fork ⟨v, [], exprs, env, purpose⟩).Within
        (Safe s (held stack ++ base)) := by
      refine ⟨hv, ?_, hrest.of_toList hlist, henv⟩
      intro w hw
      cases hw
    rw [Value.toList] at hlist
    split at hlist
    · rename_i hending
      cases hlist
      refine Serves.imp (Serves.turn st hsharing) ?_
      rintro F _ o ⟨g, hgathers, hconcludes⟩
      exact ⟨g, hgathers.settles hending, hconcludes⟩
    · cases hlist

lemma serves_resume {cont : Cont Unit} {v : Value Unit} (hlisted : early ∨ cont.IsListed)
    (st : Standing s base (cont :: stack))
    (hv : v.Within (Safe s (held (cont :: stack) ++ base))) :
    Serves early origin base stack cont.tasks s (fun V o => Answers early origin V v o cont)
      (resume .none cont v stack s) := by
  have hcont := st.within.1
  cases cont with
  | operand values rest env purpose =>
    obtain ⟨hvalues, hrest, henv⟩ := hcont
    refine serves_nextOperand st.pop ?_ hrest henv
    intro w hw
    rcases List.mem_cons.mp hw with rfl | hw
    · exact hv
    · exact hvalues w hw
  | branch consequent alternative env =>
    obtain ⟨hconsequent, halternative, henv⟩ := hcont
    refine Serves.bounce st.pop ?_ henv rfl fun F _ o hsettles => hsettles
    split
    · exact halternative
    · exact hconsequent
  | second e env =>
    obtain ⟨he, henv⟩ := hcont
    exact Serves.bounce st.pop he henv rfl fun F _ o hsettles => hsettles
  | bind name b =>
    obtain ⟨hname, hb⟩ := hcont
    have heq : held (.bind name b :: stack) ++ base = b.frame :: (held stack ++ base) := by
      rw [held_bind, List.cons_append]
    have hdistinct := st.distinct
    rw [held_bind] at hdistinct
    have hown := st.own b.frame
    have hpending := st.pending b.frame
    dsimp only at hname hb
    rw [heq] at hv hname hb hpending
    rw [held_bind] at hown
    exact serves_nextBinding (b := { b with
        names := .pair () name b.names
        values := .pair () v b.values }) st.pop
      ⟨.pair hname hb.names, .pair hv hb.values, hb.rest, hb.body, hb.env⟩
      (hpending List.mem_cons_self) (List.nodup_cons.mp hdistinct).1 (hown List.mem_cons_self)
  | share rest env purpose =>
    obtain ⟨hrest, henv⟩ := hcont
    exact serves_share hlisted st.pop hrest henv hv
  | inline sharing =>
    have hsharing : (Control.fork { sharing with
        underway := .ready v :: sharing.underway }).Within (Safe s (held stack ++ base)) := by
      refine ⟨hcont.head, ?_, hcont.rest, hcont.env⟩
      intro w hw
      rcases List.mem_cons.mp hw with hw | hw
      · cases hw
        exact hv
      · exact hcont.ready w hw
    exact Serves.turn st.pop hsharing

end Machine

/-- A step of a thread: what remained to be done before is what remains after, with the lines that
the step has printed in front. -/
structure Progress (early : Prop) (origin : Nat → Value Unit × Env Unit) (base : List Nat)
    (thread : Thread Unit) (s : State Unit) (r : Thread Unit × State Unit) : Prop where
  standing : Standing r.2 base r.1.stack
  within : r.1.control.Within (Safe r.2 (held r.1.stack ++ base))
  owed : r.1.owed.Perm thread.owed
  back : ∃ lines, r.2.printed.toList = s.printed.toList ++ lines ∧
    ∀ F : View, F.Foresees r.2 → ∀ o, Completes early origin (F.mask base) r.1 o →
      Completes early origin (F.mask base) thread (o.after lines)

section Steps

variable {early : Prop} {origin : Nat → Value Unit × Env Unit} {base : List Nat}
  {stack : List (Cont Unit)} {s : State Unit}

lemma Serves.progress {control : Control Unit} {r : Thread Unit × State Unit}
    (h : Serves early origin base stack control.tasks s
      (fun V o => Acts early origin V o control) r) :
    Progress early origin base ⟨control, stack⟩ s r := by
  obtain ⟨lines, hlines, hback⟩ := h.back
  refine ⟨h.standing, h.within, .of_eq h.owed, lines, hlines, ?_⟩
  intro F hF o ho
  obtain ⟨o₁, hacts, hunwinds⟩ := hback F hF o ho
  refine ⟨o₁, ?_, hunwinds⟩
  rwa [← View.mask_append]

lemma Machine.progress_enter {e : Value Unit} {env : Env Unit} (st : Standing s base stack)
    (he : e.Within (Safe s (held stack ++ base)))
    (henv : EnvWithin (Safe s (held stack ++ base)) env) :
    Progress early origin base ⟨.enter e env, stack⟩ s (evaluate .none .shared e env stack s) :=
  (Machine.serves_evaluate st he henv).progress

lemma Machine.progress_bounce {e : Value Unit} {env : Env Unit} (st : Standing s base stack)
    (he : e.Within (Safe s (held stack ++ base)))
    (henv : EnvWithin (Safe s (held stack ++ base)) env) :
    Progress early origin base ⟨.bounce e env, stack⟩ s (evaluate .none .shared e env stack s) :=
  (Machine.serves_evaluate st he henv).progress

lemma Machine.progress_give {cont : Cont Unit} {v : Value Unit}
    (hlisted : early ∨ cont.IsListed) (st : Standing s base (cont :: stack))
    (hv : v.Within (Safe s (held (cont :: stack) ++ base))) :
    Progress early origin base ⟨.give v, cont :: stack⟩ s (resume .none cont v stack s) := by
  have h : Serves early origin base stack cont.tasks s _ _ := Machine.serves_resume hlisted st hv
  obtain ⟨lines, hlines, hback⟩ := h.back
  refine ⟨h.standing, h.within, .of_eq h.owed, lines, hlines, ?_⟩
  intro F hF o ho
  obtain ⟨o₁, hanswers, hunwinds⟩ := hback F hF o ho
  refine ⟨.ok (v, 0), rfl, ?_⟩
  rw [View.mask_append] at hanswers
  rw [← Outcome.after_zero (o.after lines)]
  exact .cons hanswers hunwinds

theorem Machine.progress_step {thread : Thread Unit}
    (hlisted : early ∨ ∀ cont ∈ thread.stack, cont.IsListed) (own : thread.control.isOwn)
    (unfinished : thread.outcome? = none)
    (st : Standing s base thread.stack)
    (hcontrol : thread.control.Within (Safe s (held thread.stack ++ base))) :
    Progress early origin base thread s (step .none .shared thread s) := by
  obtain ⟨control, stack⟩ := thread
  cases control with
  | enter e env => exact progress_enter st hcontrol.1 hcontrol.2
  | bounce e env => exact progress_bounce st hcontrol.1 hcontrol.2
  | give v =>
    cases stack with
    | nil => cases unfinished
    | cons cont stack =>
      have hfirst : early ∨ cont.IsListed := hlisted.imp_right fun h => h cont List.mem_cons_self
      exact progress_give hfirst st hcontrol
  | fail fault => cases unfinished
  | fork | submit | join => cases own

end Steps

end Evlis
