import Evlis.Proofs.ClosureCalls
import Evlis.Proofs.InnerRuns

/-!
# What a `letrec` binds

The expressions of a `letrec` are evaluated one after the other, in an environment whose new frame
is pending, so that they see what stands outside. When all have values the frame is filled, and from
then on the last binding of a name counts. The first binding that is malformed, or whose expression
fails, ends the `letrec` and leaves its frame pending. Main statement: `letrec_binding_law`.
-/

namespace Evlis

variable {ι : Type}

/-- A binding is a list of a name that does not read as an integer and of an expression. -/
def Value.IsBinding (binding : Value ι) (name : String) (e : Value ι) : Prop :=
  binding.elements = [.atom name, e] ∧ binding.ending = .nil ∧ Name.isInteger name = false

def Value.bindingFault (limits : Limits) : Value ι → Fault
  | .pair mark car cdr =>
    if cdr.ending.isNil then (Value.pair mark car cdr).blame limits .malformedBinding
    else cdr.ending.blame limits .improperTail
  | binding => binding.blame limits .malformedBinding

namespace Binding

variable {limits : Limits} {b : Binding ι} {mark : ι} {binding rest : Value ι}

lemma next_of_isBinding {name : String} {e : Value ι} (hrest : b.rest = .pair mark binding rest)
    (h : binding.IsBinding name e) : b.next limits = .ok (some (.atom name, e, rest)) := by
  obtain ⟨helements, hending, hinteger⟩ := h
  cases binding with
  | pair mark' car cdr =>
    have hparts : Machine.bindingParts limits (.pair mark' car cdr) = .ok [.atom name, e] := by
      rw [Machine.bindingParts, Value.toList_of_ending hending, helements]
    simp only [next, hrest, hparts, hinteger]
    rfl
  | _ => cases helements

lemma next_of_malformed (hrest : b.rest = .pair mark binding rest)
    (h : ∀ name e, ¬ binding.IsBinding name e) :
    b.next limits = .error (binding.bindingFault limits) := by
  cases binding with
  | pair mark' car cdr =>
    cases hnil : cdr.ending.isNil with
    | false =>
      have hparts : Machine.bindingParts limits (.pair mark' car cdr) =
          .error (cdr.ending.blame limits .improperTail) := by
        simp [Machine.bindingParts, Value.toList, Value.ending, hnil]
      simp [next, hrest, hparts, Value.bindingFault, hnil]
    | true =>
      have hending : (Value.pair mark' car cdr).ending = .nil := Value.isNil_iff.mp hnil
      have hparts : Machine.bindingParts limits (.pair mark' car cdr) =
          .ok (car :: cdr.elements) := by
        rw [Machine.bindingParts, Value.toList_of_ending hending, Value.elements_pair]
      simp only [next, hrest, hparts, Value.bindingFault, hnil, if_true]
      split
      · rename_i failed
        cases failed
      · rename_i name e parts
        have helements := Except.ok.inj parts
        split
        · rfl
        · rename_i hinteger
          refine absurd ⟨?_, hending, Bool.eq_false_iff.mpr hinteger⟩ (h name e)
          rw [Value.elements_pair, helements]
      · rfl
  | _ => simp [next, hrest, Machine.bindingParts, Value.bindingFault]

lemma next_of_nil (hrest : b.rest = .nil) : b.next limits = .ok none := by
  rw [next, hrest]
  rfl

end Binding

namespace Machine

variable {limits : Limits} {b : Binding ι} {mark : ι} {binding rest : Value ι}

lemma nextBinding_of_isBinding {e : Value ι} {name : String}
    (hrest : b.rest = .pair mark binding rest) (formed : binding.IsBinding name e)
    (stack : List (Cont ι)) (s : State ι) :
    nextBinding limits b stack s =
      await limits (.bind (.atom name) { b with rest }) e b.env stack s := by
  rw [nextBinding_eq, Binding.next_of_isBinding hrest formed]

lemma nextBinding_of_malformed (hrest : b.rest = .pair mark binding rest)
    (malformed : ∀ name e, ¬ binding.IsBinding name e) (stack : List (Cont ι)) (s : State ι) :
    nextBinding limits b stack s = fail (binding.bindingFault limits) stack s := by
  rw [nextBinding_eq, Binding.next_of_malformed hrest malformed]

lemma nextBinding_of_nil (limits : Limits) {s : State ι} (hrest : b.rest = .nil)
    (pending : s.frames[b.frame]? = some .pending) (stack : List (Cont ι)) :
    ∃ s', nextBinding limits b stack s = bounce b.body b.env stack s' ∧
      s'.frames = s.frames.setIfInBounds b.frame (.filled b.names b.values) := by
  rw [nextBinding_eq, Binding.next_of_nil hrest]
  simp only [State.fill, pending]
  exact ⟨_, rfl, rfl⟩

end Machine

/-- A binding whose expression has a value. -/
structure Clause (ι : Type) where
  name : String
  expr : Value ι
  value : Value ι

section Names

variable [DecidableEq ι]

/-- The last binding of a name counts, and other names stand for what they stand for outside. -/
structure State.Sees (limits : Limits) (clauses : List (Clause ι)) (rib : Rib ι) (env : Env ι)
    (s : State ι) : Prop where
  bound : ∀ before clause after, clauses = before ++ clause :: after →
    (∀ later ∈ after, later.name ≠ clause.name) →
    s.lookup limits (rib :: env) (.atom clause.name) = .ok clause.value
  outer : ∀ name, (∀ clause ∈ clauses, clause.name ≠ name) →
    s.lookup limits (rib :: env) (.atom name) = s.lookup limits env (.atom name)

lemma State.sees_of_filled (limits : Limits) {clauses : List (Clause ι)} {rib : Rib ι}
    (env : Env ι) {s : State ι} {names values : Value ι}
    (hnames : names.elements = (clauses.map fun clause => .atom clause.name).reverse)
    (hvalues : values.elements = (clauses.map Clause.value).reverse)
    (hframe : s.frames[rib.frame]? = some (.filled names values)) :
    s.Sees limits clauses rib env := by
  have length : names.elements.length = values.elements.length := by simp [hnames, hvalues]
  have hfind := Frame.findIn_eq_getElem? length
  refine ⟨?_, ?_⟩
  · rintro before clause after rfl hlast
    have hnot : .atom clause.name ∉
        (after.map fun clause => (.atom clause.name : Value ι)).reverse := by
      simpa using hlast
    have hplace : names.elements.idxOf (.atom clause.name) = after.length := by
      rw [hnames, List.map_append, List.reverse_append, List.map_cons, List.reverse_cons,
        List.append_assoc, List.idxOf_append_of_notMem hnot]
      simp
    refine State.lookup_of_find hframe ((hfind clause.name).trans ?_) limits env
    rw [hplace, hvalues]
    simp
  · intro name hname
    refine State.lookup_of_not_find hframe ((hfind name).trans ?_) limits env
    refine List.getElem?_eq_none ?_
    rw [List.idxOf_eq_length, length]
    rw [hnames]
    simpa using hname

lemma State.lookup_of_pending {s : State ι} {rib : Rib ι}
    (pending : s.frames[rib.frame]? = some .pending) (limits : Limits) (env : Env ι)
    (name : Value ι) : s.lookup limits (rib :: env) name = s.lookup limits env name :=
  State.lookup_of_not_find pending rfl limits env

end Names

variable [DecidableEq ι] [Marking ι]

/-- Bindings that are all well formed and whose expressions have values, one after the other; the
names and the values are put in front of two lists. -/
inductive BoundInTurn (limits : Limits) (env : Env ι) :
    List (Value ι) → State ι → List (Clause ι) → State ι → Prop where
  | nil (s : State ι) : BoundInTurn limits env [] s [] s
  | cons {binding : Value ι} {bindings : List (Value ι)} {clause : Clause ι}
      {clauses : List (Clause ι)} {s s₁ s' : State ι}
      (formed : binding.IsBinding clause.name clause.expr)
      (evaluates : Evaluates limits clause.expr env s (.ok clause.value) s₁)
      (others : BoundInTurn limits env bindings s₁.fresh.2.fresh.2 clauses s') :
      BoundInTurn limits env (binding :: bindings) s (clause :: clauses) s'

/-- A binding that ends the evaluation of a list of bindings: the fault, the state that is left, and
the expressions that are evaluated for it. -/
inductive BreaksOff (limits : Limits) (env : Env ι) (binding : Value ι) (s : State ι) :
    Fault → State ι → List (Value ι) → Prop where
  | malformed (h : ∀ name e, ¬ binding.IsBinding name e) :
      BreaksOff limits env binding s (binding.bindingFault limits) s []
  | fails {name : String} {e : Value ι} {fault : Fault} {s' : State ι}
      (formed : binding.IsBinding name e) (failed : Evaluates limits e env s (.error fault) s') :
      BreaksOff limits env binding s fault s' [e]

section Kept

variable {limits : Limits} {env : Env ι} {s s' : State ι} {n : Nat}

lemma Evaluates.pending {e : Value ι} {outcome : Except Fault (Value ι)}
    (h : Evaluates limits e env s outcome s') (pending : s.frames[n]? = some .pending) :
    s'.frames[n]? = some .pending := by
  unfold Evaluates at h
  split at h
  · obtain ⟨fuel, hrun⟩ := h
    rw [Evaluation.evaluate_inOrder_iff] at hrun
    obtain ⟨thread, hreach, -⟩ := Machine.reaches_of_runUntil hrun
    have d := Machine.disciplined_reaches (Machine.disciplined_start e env s) hreach
    rw [d.kept n (lt_size_of_getElem? pending), pending]
  · rw [h.2, pending]

lemma BoundInTurn.pending {bindings : List (Value ι)} {clauses : List (Clause ι)}
    (h : BoundInTurn limits env bindings s clauses s') (pending : s.frames[n]? = some .pending) :
    s'.frames[n]? = some .pending := by
  induction h with
  | nil s => exact pending
  | cons formed evaluates others ih => exact ih (evaluates.pending pending)

lemma BreaksOff.pending {binding : Value ι} {fault : Fault} {started : List (Value ι)}
    (h : BreaksOff limits env binding s fault s' started)
    (pending : s.frames[n]? = some .pending) : s'.frames[n]? = some .pending := by
  cases h with
  | malformed h => exact pending
  | fails formed failed => exact failed.pending pending

end Kept

/-! ## Runs -/

namespace Machine

variable {limits : Limits} {b : Binding ι} {s s' : State ι} {fuel : Nat}

/-- All bindings are evaluated, and their names and values installed, last first. -/
structure Installs (limits : Limits) (b : Binding ι) (s : State ι) (clauses : List (Clause ι))
    (s₁ s' : State ι) : Prop where
  bound : BoundInTurn limits b.env b.rest.elements s clauses s₁
  filled : ∃ names values : Value ι,
    names.elements = (clauses.map fun clause => .atom clause.name).reverse ++ b.names.elements ∧
    values.elements = (clauses.map Clause.value).reverse ++ b.values.elements ∧
    s'.frames = s₁.frames.setIfInBounds b.frame (.filled names values)

lemma Installs.cons {mark : ι} {binding rest e v : Value ι} {name : String} {s₁ s₂ : State ι}
    {clauses : List (Clause ι)} (hrest : b.rest = .pair mark binding rest)
    (formed : binding.IsBinding name e) (evaluates : Evaluates limits e b.env s (.ok v) s₁)
    (h : Installs limits (b.bind (.atom name) v rest s₁).1 (b.bind (.atom name) v rest s₁).2
      clauses s₂ s') : Installs limits b s (⟨name, e, v⟩ :: clauses) s₂ s' := by
  obtain ⟨names, values, hnames, hvalues, hframes⟩ := h.filled
  refine ⟨?_, names, values, ?_, ?_, hframes⟩
  · rw [hrest, Value.elements_pair]
    exact .cons formed evaluates h.bound
  · simpa [Binding.bind, State.cons] using hnames
  · simpa [Binding.bind, State.cons] using hvalues

/-- The run of a list of bindings: all are installed, or one of them ends it. -/
theorem runUntil_nextBinding (proper : b.rest.ending = .nil)
    (pending : s.frames[b.frame]? = some .pending) {r : Except Fault (Answer ι)}
    (h : runUntil Thread.answer? limits fuel (nextBinding limits b [] s).1
      (nextBinding limits b [] s).2 = some (r, s')) :
    (∃ clauses s₁, r = .ok (.tail b.body b.env) ∧ Installs limits b s clauses s₁ s') ∨
    ∃ done binding rest clauses s₁ fault started, r = .error fault ∧
      b.rest.elements = done ++ binding :: rest ∧ BoundInTurn limits b.env done s clauses s₁ ∧
      BreaksOff limits b.env binding s₁ fault s' started ∧
      (hasRoom limits ([] : List (Cont ι)) → ∀ seen,
        Evaluation.startedInOrder limits fuel seen (nextBinding limits b [] s).1
          (nextBinding limits b [] s).2 =
        started ++ (clauses.map Clause.expr).reverse ++ seen) := by
  induction hrest : b.rest generalizing b s fuel with
  | pair mark binding rest _ ih =>
    rw [hrest] at proper
    rw [Value.elements_pair]
    by_cases formed : ∃ name e, binding.IsBinding name e
    · obtain ⟨name, e, formed⟩ := formed
      rw [nextBinding_of_isBinding hrest formed] at h ⊢
      rcases runUntil_await watches_answer rfl h with
        ⟨v, s₁, fuel', evaluates, hresume, hstarted⟩ | ⟨fault, failed, rfl, hstarted⟩
      · -- The value stands in front of those before it, and the rest of the list is next.
        rcases ih (b := (b.bind (.atom name) v rest s₁).1) (s := (b.bind (.atom name) v rest s₁).2)
            proper (evaluates.pending pending) hresume rfl with
          ⟨clauses, s₂, rfl, hinstalls⟩ |
            ⟨done, broken, others, clauses, s₂, fault, started, rfl, hsplit, hbound, hbreaks,
              htrace⟩
        · exact .inl ⟨⟨name, e, v⟩ :: clauses, s₂, rfl, hinstalls.cons hrest formed evaluates⟩
        · refine .inr ⟨binding :: done, broken, others, ⟨name, e, v⟩ :: clauses, s₂, fault, started,
            rfl, by rw [hsplit]; rfl, .cons formed evaluates hbound, hbreaks, ?_⟩
          intro room seen
          rw [hstarted seen]
          refine (htrace room (e :: seen)).trans ?_
          simp
      · exact .inr ⟨[], binding, rest.elements, [], s, fault, [e], rfl, rfl, .nil s,
          .fails formed failed, hstarted⟩
    · have malformed : ∀ name e, ¬ binding.IsBinding name e :=
        fun name e hformed => formed ⟨name, e, hformed⟩
      rw [nextBinding_of_malformed hrest malformed] at h ⊢
      cases fuel with
      | zero => cases h
      | succ fuel =>
        obtain ⟨rfl, rfl⟩ := Prod.mk.inj
          (Option.some.inj ((runUntil_fail watches_answer ..).symm.trans h))
        exact .inr ⟨[], binding, rest.elements, [], s, _, [], rfl, rfl, .nil s,
          .malformed malformed, fun _ seen => rfl⟩
  | _ =>
    rw [hrest] at proper
    obtain ⟨s₁, hnext, hframes⟩ := nextBinding_of_nil limits (hrest.trans proper) pending []
    rw [hnext] at h
    cases fuel with
    | zero => cases h
    | succ fuel =>
      cases h
      exact .inl ⟨[], s, rfl, by rw [hrest]; exact .nil s, _, _, rfl, rfl, hframes⟩

/-- A run of a list of bindings goes on behind those that have values. -/
lemma exists_run_behind {done others : List (Value ι)} {clauses : List (Clause ι)} {s₁ : State ι}
    (bound : BoundInTurn limits b.env done s clauses s₁)
    (hrest : b.rest.elements = done ++ others) :
    ∃ names values rest, rest.elements = others ∧ rest.ending = b.rest.ending ∧
      names.elements = (clauses.map fun clause => .atom clause.name).reverse ++ b.names.elements ∧
      values.elements = (clauses.map Clause.value).reverse ++ b.values.elements ∧
      ∀ fuel r, runUntil Thread.answer? limits fuel
          (nextBinding limits { b with names, values, rest } [] s₁).1
          (nextBinding limits { b with names, values, rest } [] s₁).2 = some r →
        ∃ fuel', runUntil Thread.answer? limits fuel' (nextBinding limits b [] s).1
          (nextBinding limits b [] s).2 = some r := by
  generalize henv : b.env = env at bound
  induction bound generalizing b with
  | nil s =>
    subst henv
    exact ⟨b.names, b.values, b.rest, hrest, rfl, rfl, rfl, fun fuel r h => ⟨fuel, h⟩⟩
  | @cons binding bindings clause clauses s s₁ s' formed evaluates _ ih =>
    obtain ⟨mark, rest, hpair, helements⟩ := Value.pair_of_elements hrest
    obtain ⟨names, values, rest', hothers, hending, hnames, hvalues, hrun⟩ := ih
      (b := (b.bind (.atom clause.name) clause.value rest s₁).1) helements henv
    refine ⟨names, values, rest', hothers, ?_, ?_, ?_, fun fuel r h => ?_⟩
    · rw [hending, hpair]
      rfl
    · simpa [Binding.bind, State.cons] using hnames
    · simpa [Binding.bind, State.cons] using hvalues
    · obtain ⟨fuel₁, hresume⟩ := hrun fuel r h
      subst henv
      rw [nextBinding_of_isBinding hpair formed]
      exact exists_runUntil_await watches_answer rfl evaluates hresume

/-- All bindings that have values are installed. -/
lemma exists_run_installing (proper : b.rest.ending = .nil)
    (pending : s.frames[b.frame]? = some .pending) {clauses : List (Clause ι)} {s₁ : State ι}
    (bound : BoundInTurn limits b.env b.rest.elements s clauses s₁) :
    ∃ fuel s', runUntil Thread.answer? limits fuel (nextBinding limits b [] s).1
        (nextBinding limits b [] s).2 = some (.ok (.tail b.body b.env), s') ∧
      Installs limits b s clauses s₁ s' := by
  obtain ⟨names, values, rest, hrest, hending, hnames, hvalues, hrun⟩ :=
    exists_run_behind bound (List.append_nil _).symm
  have hnil : rest = .nil := by
    rw [proper] at hending
    cases rest with
    | pair mark car cdr =>
      rw [Value.elements_pair] at hrest
      cases hrest
    | _ => exact hending
  obtain ⟨s', hnext, hframes⟩ := nextBinding_of_nil limits
    (b := { b with names, values, rest }) hnil (bound.pending pending) []
  obtain ⟨fuel, h⟩ := hrun 1 (.ok (.tail b.body b.env), s') (by rw [hnext]; rfl)
  exact ⟨fuel, s', h, bound, names, values, hnames, hvalues, hframes⟩

/-- A binding that breaks off, behind bindings that have values, ends the run. -/
lemma exists_run_breaking {done rest : List (Value ι)} {binding : Value ι}
    {clauses : List (Clause ι)} {s₁ : State ι} {fault : Fault} {started : List (Value ι)}
    (hrest : b.rest.elements = done ++ binding :: rest)
    (bound : BoundInTurn limits b.env done s clauses s₁)
    (breaks : BreaksOff limits b.env binding s₁ fault s' started) :
    ∃ fuel, runUntil Thread.answer? limits fuel (nextBinding limits b [] s).1
      (nextBinding limits b [] s).2 = some (.error fault, s') := by
  obtain ⟨names, values, others, hothers, -, -, -, hrun⟩ := exists_run_behind bound hrest
  obtain ⟨mark, rest', hpair, -⟩ := Value.pair_of_elements hothers
  cases breaks with
  | malformed h =>
    refine hrun 1 _ ?_
    rw [nextBinding_of_malformed hpair h]
    exact runUntil_fail watches_answer 0 _ [] s'
  | fails formed failed =>
    obtain ⟨fuel, h⟩ := exists_runUntil_await_error watches_answer (.bind _ _) rfl failed
    refine hrun fuel _ ?_
    rw [nextBinding_of_isBinding hpair formed]
    exact h

end Machine

/-- The names of a `letrec` are bound now and at all later times. -/
def State.SeesFromNow (limits : Limits) (clauses : List (Clause ι)) (rib : Rib ι) (env : Env ι)
    (s : State ι) : Prop :=
  ∀ limits' thread c, Machine.Reaches limits' (thread, s) c → c.2.Sees limits clauses rib env

lemma Machine.Installs.seesFromNow {limits : Limits} {bindings body : Value ι} {env : Env ι}
    {s s₁ s' : State ι} {clauses : List (Clause ι)}
    (h : Installs limits (s.suspend bindings body env).1 (s.suspend bindings body env).2 clauses s₁
      s') :
    s'.SeesFromNow limits clauses ⟨s.mark, s.frames.size⟩ env := by
  obtain ⟨names, values, hnames, hvalues, hframes⟩ := h.filled
  have hpending : s₁.frames[s.frames.size]? = some .pending :=
    h.bound.pending Array.getElem?_push_size
  have hfilled : s'.frames[s.frames.size]? = some (.filled names values) := by
    rw [hframes]
    exact Array.getElem?_setIfInBounds_self_of_lt (lt_size_of_getElem? hpending)
  intro limits' thread c hreach
  refine State.sees_of_filled limits env ?_ ?_ (filled_persists hreach hfilled)
  · exact hnames.trans (List.append_nil _)
  · exact hvalues.trans (List.append_nil _)

omit [DecidableEq ι] in
lemma Machine.form_letrec (limits : Limits) {tail bindings body : Value ι} (env : Env ι)
    (s : State ι) (parts : tail.elements = [bindings, body]) (proper : tail.ending = .nil) :
    form limits .inOrder .letrec tail env [] s =
      nextBinding limits (s.suspend bindings body env).1 [] (s.suspend bindings body env).2 := by
  have hlist : tail.toList limits = .ok [bindings, body] := by
    rw [Value.toList_of_ending proper, parts]
  rw [form_eq_pursue]
  simp only [Demand.ofForm, hlist]
  rfl

lemma Evaluation.evaluateForm_letrec_iff {limits : Limits} {tail bindings body : Value ι}
    {env : Env ι} {s s' : State ι} {fuel : Nat} {r : Except Fault (Answer ι)} {strategy : Strategy}
    (parts : tail.elements = [bindings, body]) (proper : tail.ending = .nil) :
    evaluateForm fuel limits .inOrder .letrec tail env s = some (r, strategy, s') ↔
      strategy = .inOrder ∧ Machine.runUntil Thread.answer? limits fuel
        (Machine.nextBinding limits (s.suspend bindings body env).1 []
          (s.suspend bindings body env).2).1
        (Machine.nextBinding limits (s.suspend bindings body env).1 []
          (s.suspend bindings body env).2).2 = some (r, s') := by
  simp only [evaluateForm, execute, Strategy.mode, Machine.form_letrec limits env s parts proper]
  split
  · rename_i h
    simp [h]
  · rename_i r' s₁ h
    simp [h]
    tauto

/-- A `letrec` with a proper list of bindings returns its body if every binding is well formed and
every expression has a value, each evaluated in turn; from then on the last binding of a name
counts. Otherwise it fails with the first binding that is malformed or whose expression fails,
evaluates nothing behind it, and leaves its frame pending. While the expressions are evaluated, their
environment says what the environment of the `letrec` says. -/
theorem letrec_binding_law (limits : Limits) (tail bindings body : Value ι) (env : Env ι)
    (s : State ι) (parts : tail.elements = [bindings, body]) (proper : tail.ending = .nil)
    (listed : bindings.ending = .nil) :
    let rib : Rib ι := ⟨s.mark, s.frames.size⟩
    let s₀ : State ι := { s with frames := s.frames.push .pending, mark := Marking.next s.mark }
    let run fuel := Evaluation.evaluateForm fuel limits .inOrder .letrec tail env s
    let begun := Machine.form limits .inOrder .letrec tail env [] s
    (∀ fuel answer strategy s', run fuel = some (.ok answer, strategy, s') →
      answer = .tail body (rib :: env) ∧ ∃ clauses s₁,
        BoundInTurn limits (rib :: env) bindings.elements s₀ clauses s₁ ∧
        s'.SeesFromNow limits clauses rib env) ∧
    (∀ clauses s₁, BoundInTurn limits (rib :: env) bindings.elements s₀ clauses s₁ →
      ∃ fuel s', run fuel = some (.ok (.tail body (rib :: env)), .inOrder, s') ∧
        s'.SeesFromNow limits clauses rib env) ∧
    (∀ fuel fault strategy s', run fuel = some (.error fault, strategy, s') →
      ∃ done binding rest clauses s₁ started, bindings.elements = done ++ binding :: rest ∧
        BoundInTurn limits (rib :: env) done s₀ clauses s₁ ∧
        BreaksOff limits (rib :: env) binding s₁ fault s' started ∧
        s'.frames[rib.frame]? = some .pending ∧
        (Machine.hasRoom limits ([] : List (Cont ι)) →
          (Evaluation.startedInOrder limits fuel [] begun.1 begun.2).reverse =
            clauses.map Clause.expr ++ started)) ∧
    (∀ done binding rest clauses s₁ fault s' started, bindings.elements = done ++ binding :: rest →
      BoundInTurn limits (rib :: env) done s₀ clauses s₁ →
      BreaksOff limits (rib :: env) binding s₁ fault s' started →
      ∃ fuel, run fuel = some (.error fault, .inOrder, s')) ∧
    ∀ done clauses s₁, BoundInTurn limits (rib :: env) done s₀ clauses s₁ →
      ∀ e c, Machine.Reaches (limits.under 1) (Thread.start e (rib :: env), s₁) c →
        ∀ name, c.2.lookup limits (rib :: env) name = c.2.lookup limits env name := by
  intro rib s₀ run begun
  have hpending : s₀.frames[rib.frame]? = some .pending := Array.getElem?_push_size
  refine ⟨?_, ?_, ?_, ?_, ?_⟩
  · intro fuel answer strategy s' h
    obtain ⟨-, hrun⟩ := (Evaluation.evaluateForm_letrec_iff parts proper).mp h
    rcases Machine.runUntil_nextBinding listed hpending hrun with
      ⟨clauses, s₁, hanswer, hinstalls⟩ | ⟨_, _, _, _, _, fault, _, hfault, -⟩
    · exact ⟨Except.ok.inj hanswer, clauses, s₁, hinstalls.bound, hinstalls.seesFromNow⟩
    · cases hfault
  · intro clauses s₁ bound
    obtain ⟨fuel, s', hrun, hinstalls⟩ := Machine.exists_run_installing
      (b := (s.suspend bindings body env).1) listed hpending bound
    exact ⟨fuel, s', (Evaluation.evaluateForm_letrec_iff parts proper).mpr ⟨rfl, hrun⟩,
      hinstalls.seesFromNow⟩
  · intro fuel fault strategy s' h
    obtain ⟨-, hrun⟩ := (Evaluation.evaluateForm_letrec_iff parts proper).mp h
    rcases Machine.runUntil_nextBinding listed hpending hrun with
      ⟨_, _, hanswer, -⟩ |
        ⟨done, binding, rest, clauses, s₁, fault', started, hfault, hsplit, bound, breaks, htrace⟩
    · cases hanswer
    · cases hfault
      refine ⟨done, binding, rest, clauses, s₁, started, hsplit, bound, breaks,
        breaks.pending (bound.pending hpending), fun room => ?_⟩
      rw [show begun = _ from Machine.form_letrec limits env s parts proper, htrace room []]
      cases breaks <;> simp
  · intro done binding rest clauses s₁ fault s' started hsplit bound breaks
    obtain ⟨fuel, hrun⟩ := Machine.exists_run_breaking
      (b := (s.suspend bindings body env).1) hsplit bound breaks
    exact ⟨fuel, (Evaluation.evaluateForm_letrec_iff parts proper).mpr ⟨rfl, hrun⟩⟩
  · intro done clauses s₁ bound e c hreach name
    have hkept := (Machine.disciplined_reaches (Machine.disciplined_start e (rib :: env) s₁)
      hreach).kept rib.frame (lt_size_of_getElem? (bound.pending hpending))
    exact State.lookup_of_pending (hkept.trans (bound.pending hpending)) limits env name

/-- Two bindings of one name: the second counts, and its expression is looked up outside. -/
theorem letrec_binding_of_repeated_name :
    let binding (e : String) : Value Unit := .pair () (.atom "x") (.pair () (.atom e) .nil)
    let bindings : Value Unit := .pair () (binding "1") (.pair () (binding "y") .nil)
    let tail : Value Unit := .pair () bindings (.pair () (.atom "x") .nil)
    let outside : Frame Unit := .filled (.pair () (.atom "y") .nil) (.pair () (.atom "7") .nil)
    let s : State Unit := ⟨#[outside], (), #[], #[]⟩
    ∃ fuel s', Evaluation.evaluateForm fuel .none .inOrder .letrec tail [⟨(), 0⟩] s =
        some (.ok (.tail (.atom "x") [⟨(), 1⟩, ⟨(), 0⟩]), .inOrder, s') ∧
      s'.lookup .none [⟨(), 1⟩, ⟨(), 0⟩] (.atom "x") = .ok (.atom "7") := by
  intro binding bindings tail outside s
  have law := letrec_binding_law .none tail bindings (.atom "x") [⟨(), 0⟩] s rfl rfl rfl
  let s₀ : State Unit := { s with frames := s.frames.push .pending }
  have hfirst : Evaluates .none (.atom "1") [⟨(), 1⟩, ⟨(), 0⟩] s₀ (.ok (.atom "1")) s₀ :=
    ⟨2, by decide⟩
  have hsecond : Evaluates .none (.atom "y") [⟨(), 1⟩, ⟨(), 0⟩] s₀ (.ok (.atom "7")) s₀ :=
    ⟨2, by decide⟩
  obtain ⟨fuel, s', hrun, hsees⟩ := law.2.1
    [⟨"x", .atom "1", .atom "1"⟩, ⟨"x", .atom "y", .atom "7"⟩]
    s₀ (.cons ⟨rfl, rfl, by decide⟩ hfirst (.cons ⟨rfl, rfl, by decide⟩ hsecond (.nil _)))
  refine ⟨fuel, s', hrun, ?_⟩
  exact (hsees .none ⟨.give .nil, []⟩ _ .refl).bound [_] _ [] rfl nofun

end Evlis
