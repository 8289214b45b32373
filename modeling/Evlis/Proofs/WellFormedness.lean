import Evlis.Interpreter
import Evlis.Proofs.Regularity

/-!
# Well-formed states

Every step of an evaluation keeps states regular. So a program that is evaluated in order meets
nothing that cannot be evaluated or printed, and the only chains it meets that do not end in `nil`
are names that stand in the place of a list of parameters or of bindings.
-/

namespace Evlis

namespace Binding.Regular

variable {r : Course} {b : Binding Unit} {limits : Limits}

lemma next (h : b.Regular r) {name e rest : Value Unit}
    (hnext : b.next limits = .ok (some (name, e, rest))) :
    (∃ n, name = .atom n ∧ Name.isInteger n = false) ∧ e.PartOf r.program ∧
      ({ b with rest } : Binding Unit).Regular r := by
  obtain ⟨mark, binding, hrest, hparts, hname⟩ := Binding.eq_of_next hnext
  have hpart := h.rest
  have hproper := h.proper
  rw [hrest] at hpart hproper
  have hbinding : binding.PartOf r.program := .trans (.car .whole) hpart
  refine ⟨hname, hbinding.of_mem ?_,
    ⟨h.names, h.values, h.ending, h.length, .trans (.cdr .whole) hpart, hproper, h.body, h.env⟩⟩
  rw [hparts]
  simp

lemma isPlain_of_next (h : b.Regular r) {fault : Fault} (hnext : b.next limits = .error fault) :
    fault.IsPlain := by
  obtain ⟨names, values, bindings, body, env, frame⟩ := b
  have hpart := h.rest
  have hproper := h.proper
  unfold Binding.next at hnext
  dsimp only at hnext hpart hproper
  split at hnext
  · rename_i mark binding others
    have hwritten := r.written.part (.trans (.car .whole) hpart)
    have hregular : binding.Regular r := .of_written hwritten
    have hmalformed : (binding.blame limits .malformedBinding).IsPlain :=
      hregular.isPlain_blame limits fun _ => trivial
    split at hnext
    · rename_i hp
      cases binding with
      | pair mark car cdr =>
        have hending : (Value.pair mark car cdr).ending = .nil := hwritten.2.2
        rw [Machine.bindingParts, Value.toList_of_ending hending] at hp
        cases hp
      | _ => cases hp
    · split at hnext
      · cases hnext
        exact hmalformed
      · cases hnext
    · cases hnext
      exact hmalformed
  · rename_i tail hshape
    split at hnext
    · cases hnext
    · rename_i hnil
      cases bindings with
      | pair mark car cdr => exact (hshape mark car cdr rfl).elim
      | _ => exact (hnil (Value.isNil_iff.mpr hproper)).elim

lemma bind (h : b.Regular r) {n : String} (hn : Name.isInteger n = false) {v : Value Unit}
    (hv : v.Regular r) (s : State Unit) : (b.bind (.atom n) v b.rest s).1.Regular r where
  names := h.names.cons hn _
  values := .pair hv h.values
  ending := h.ending
  length := by
    have hlength := h.length
    simp only [Binding.bind, State.cons, State.fresh, Value.length_pair, hlength]
  rest := h.rest
  proper := h.proper
  body := h.body
  env := h.env

end Binding.Regular

namespace Machine

variable {r : Course} {F : Fault → Prop} {limits : Limits} {mode : Mode}
  {stack : List (Cont Unit)} {s : State Unit}

lemma regular_await (plain : ∀ fault, fault.IsPlain → F fault) {cont : Cont Unit}
    (hcont : cont.Regular r) {e : Value Unit} {env : Env Unit} (he : e.PartOf r.program)
    (henv : r.Owns env) (hstack : ∀ cont ∈ stack, cont.Regular r) (hs : s.Regular r) :
    Regular r F (await limits cont e env stack s) := by
  unfold await
  split
  · exact ⟨⟨he, henv⟩, List.forall_mem_cons.mpr ⟨hcont, hstack⟩, hs⟩
  · exact ⟨plain _ trivial, hstack, hs⟩

lemma regular_primitive (plain : ∀ fault, fault.IsPlain → F fault) {name : String}
    {arguments : Value Unit} (harguments : arguments.Regular r)
    (hending : arguments.ending = .nil) :
    (Demand.done (Primitive.apply limits name arguments s).1).Regular r F := by
  have hlike := (Primitive.apply_congruent Value.Regular.congruence limits name
    ⟨rfl, harguments⟩ s s).1
  cases houtcome : (Primitive.apply limits name arguments s).1 with
  | ok v =>
    rw [houtcome] at hlike
    cases hlike with
    | ok h => exact h.2
  | error fault =>
    refine plain _ ?_
    rcases Primitive.mayCause_of_apply houtcome with hown | hlist | ⟨v, hv, unprinted⟩
    · exact hown.isPlain
    · rw [Value.toList_of_ending hending] at hlist
      cases hlist
    · have hregular : v.Regular r := harguments.part (.of_mem .whole hv)
      rw [hregular.tooDeep_of_print unprinted]
      trivial

lemma regular_apply (plain : ∀ fault, fault.IsPlain → F fault) {call : Value Unit}
    (hcall : call.Regular r) (hending : call.ending = .nil)
    (hstack : ∀ cont ∈ stack, cont.Regular r) (hs : s.Regular r) :
    Regular r F (apply limits call stack s) := by
  have hmisfit : ∀ v : Value Unit, v.Regular r →
      Regular r F (fail (v.blame limits .illegalFunction) stack s) := by
    intro v hv
    exact ⟨plain _ (hv.isPlain_blame limits fun _ => trivial), hstack, hs⟩
  unfold apply
  split
  · rename_i name arguments
    cases hcall with
    | pair _ harguments =>
      have hresult : (Demand.done (Primitive.apply limits name arguments s).1).Regular r F :=
        regular_primitive plain harguments hending
      have hframes := Primitive.frames_apply limits name arguments s
      split
      · rename_i applied
        rw [applied] at hresult hframes
        exact ⟨hresult, hstack, hs.of_frames hframes⟩
      · rename_i applied
        rw [applied] at hresult hframes
        exact ⟨hresult, hstack, hs.of_frames hframes⟩
  · rename_i lambda formals body env arguments
    cases hcall with
    | pair hfunction harguments =>
      have hregular := hfunction
      cases hfunction with
      | closure part parameters owned =>
        unfold extendEnv
        by_cases hlength : formals.length = arguments.length
        · rw [if_pos hlength]
          have hframe : (Frame.filled formals arguments).Regular r :=
            ⟨parameters, harguments, hending, hlength.symm⟩
          refine ⟨⟨?_, ?_⟩, hstack, hs.push hframe rfl⟩
          · exact .trans (.cdr (.car .whole)) part
          · exact owned.cons hs.grown
        · rw [if_neg hlength]
          exact ⟨plain _ (hregular.isPlain_blame limits fun _ => trivial), hstack, hs⟩
  · rename_i function _ _ _
    cases hcall with
    | pair hfunction _ => exact hmisfit _ hfunction
  · exact hmisfit _ hcall

lemma regular_finish (plain : ∀ fault, fault.IsPlain → F fault) {operands : Value Unit}
    (hoperands : operands.Regular r) (hending : operands.ending = .nil) (purpose : Purpose)
    (hstack : ∀ cont ∈ stack, cont.Regular r) (hs : s.Regular r) :
    Regular r F (finish limits purpose operands stack s) := by
  cases purpose with
  | call => exact regular_apply plain hoperands hending hstack hs
  | collect => exact ⟨hoperands, hstack, hs⟩

lemma regular_nextOperand (plain : ∀ fault, fault.IsPlain → F fault) {values : List (Value Unit)}
    (hvalues : ∀ v ∈ values, v.Regular r) {rest : Value Unit} (hrest : rest.PartOf r.program)
    (hending : rest.ending = .nil) {env : Env Unit} (henv : r.Owns env) (purpose : Purpose)
    (hstack : ∀ cont ∈ stack, cont.Regular r) (hs : s.Regular r) :
    Regular r F (nextOperand limits values rest env purpose stack s) := by
  unfold nextOperand
  split
  · rename_i e rest
    have hcont : (Cont.operand values rest env purpose).Regular r :=
      ⟨hvalues, .trans (.cdr .whole) hrest, hending, henv⟩
    exact regular_await plain hcont (.trans (.car .whole) hrest) henv hstack hs
  · rename_i tail hshape
    have hnil : rest = .nil := by
      cases rest with
      | pair mark car cdr => exact (hshape mark car cdr rfl).elim
      | _ => exact hending
    have hlist : (values.foldl (fun tail v => Value.pair () v tail) .nil).Regular r :=
      .chain hvalues (.atom "nil")
    have hproper : (values.foldl (fun tail v => Value.pair () v tail) .nil).ending = .nil :=
      Value.ending_chain values .nil
    rw [hnil, if_pos (Value.isNil_iff.mpr rfl), State.chain_unit]
    exact regular_finish plain hlist hproper purpose hstack hs

lemma regular_operands (plain : ∀ fault, fault.IsPlain → F fault) {exprs : Value Unit}
    (hexprs : exprs.PartOf r.program) (hending : exprs.ending = .nil) {env : Env Unit}
    (henv : r.Owns env) (purpose : Purpose) (hstack : ∀ cont ∈ stack, cont.Regular r)
    (hs : s.Regular r) : Regular r F (operands limits mode exprs env purpose stack s) := by
  unfold operands
  split
  · rename_i e rest
    have hcont : (Cont.share rest env purpose).Regular r :=
      ⟨.trans (.cdr .whole) hexprs, hending, henv⟩
    exact regular_await plain hcont (.trans (.car .whole) hexprs) henv hstack hs
  · exact regular_nextOperand plain (by simp) hexprs hending henv purpose hstack hs

lemma regular_nextBinding (plain : ∀ fault, fault.IsPlain → F fault) (refilled : F .frameFilled)
    {b : Binding Unit} (hb : b.Regular r) (hstack : ∀ cont ∈ stack, cont.Regular r)
    (hs : s.Regular r) : Regular r F (nextBinding limits b stack s) := by
  rw [nextBinding_eq]
  split
  · rename_i hnext
    exact ⟨plain _ (hb.isPlain_of_next hnext), hstack, hs⟩
  · rename_i hnext
    obtain ⟨hname, he, hothers⟩ := hb.next hnext
    have hcont : (Cont.bind _ _).Regular r := ⟨hname, hothers⟩
    exact regular_await plain hcont he hb.env hstack hs
  · have hframe : (Frame.filled b.names b.values).Regular r :=
      ⟨hb.names, hb.values, hb.ending, hb.length⟩
    unfold State.fill
    split
    · rename_i hfill
      split at hfill
      · cases hfill
      · cases hfill
        exact ⟨refilled, hstack, hs⟩
    · rename_i hfill
      split at hfill
      · cases hfill
        exact ⟨⟨hb.body, hb.env⟩, hstack, hs.set hframe rfl⟩
      · cases hfill

lemma regular_evaluate (plain : ∀ fault, fault.IsPlain → F fault) (refilled : F .frameFilled)
    {e : Value Unit} (he : e.PartOf r.program)
    (misplaced : ∀ name, e.MisplacedName name → F (.improperTail name)) {env : Env Unit}
    (henv : r.Owns env) (hstack : ∀ cont ∈ stack, cont.Regular r) (hs : s.Regular r) :
    Regular r F (evaluate limits mode e env stack s) := by
  have hlookup : ∀ name,
      Demand.Regular r F (.done (s.lookup limits env (.atom name))) := by
    intro name
    unfold State.lookup
    split
    · rename_i found
      exact hs.lookup? henv found
    · exact plain _ trivial
  have hdemand := Demand.regular_ofExpr plain limits hlookup he misplaced
  rw [evaluate_eq_pursue]
  generalize Demand.ofExpr limits (s.lookup limits env) e = demand at hdemand
  cases demand with
  | done outcome =>
    cases outcome with
    | ok v => exact ⟨hdemand, hstack, hs⟩
    | error fault => exact ⟨hdemand, hstack, hs⟩
  | closure tail formals body =>
    obtain ⟨rfl, hpart, hparameters⟩ := hdemand
    exact ⟨.closure hpart hparameters henv, hstack, hs⟩
  | operands exprs purpose =>
    exact regular_operands plain hdemand.1 hdemand.2 henv purpose hstack hs
  | branch condition consequent alternative =>
    have hcont : (Cont.branch consequent alternative env).Regular r :=
      ⟨hdemand.2.1, hdemand.2.2, henv⟩
    exact regular_await plain hcont hdemand.1 henv hstack hs
  | second first last =>
    have hcont : (Cont.second last env).Regular r := ⟨hdemand.2, henv⟩
    exact regular_await plain hcont hdemand.1 henv hstack hs
  | letrec bindings body =>
    obtain ⟨hbindings, hbody, hproper | ⟨name, hname, rfl, hfault⟩⟩ := hdemand
    · have hpending : (Frame.pending : Frame Unit).Regular r := trivial
      have hs' : (s.suspend bindings body env).2.Regular r := hs.push hpending rfl
      have hb : (s.suspend bindings body env).1.Regular r :=
        ⟨Value.isParameters_nil, .atom "nil", rfl, rfl, hbindings, hproper, hbody,
          henv.cons hs.grown⟩
      exact regular_nextBinding plain refilled hb hstack hs'
    · have hpending : (Frame.pending : Frame Unit).Regular r := trivial
      have hs' : (s.suspend (.atom name) body env).2.Regular r := hs.push hpending rfl
      have hnext : (s.suspend (.atom name) body env).1.next limits =
          .error (.improperTail name) := by
        simp [Binding.next, State.suspend, State.link, State.fresh, Value.isNil, hname,
          Value.blame, Value.display, Value.print, Value.obstacle, Value.text, Value.write]
      change Regular r F (nextBinding limits (s.suspend (.atom name) body env).1 stack
        (s.suspend (.atom name) body env).2)
      rw [nextBinding_eq, hnext]
      exact ⟨hfault, hstack, hs'⟩

lemma regular_resume (plain : ∀ fault, fault.IsPlain → F fault) (refilled : F .frameFilled)
    {cont : Cont Unit} (hcont : cont.Regular r) {v : Value Unit} (hv : v.Regular r)
    (hstack : ∀ cont ∈ stack, cont.Regular r) (hs : s.Regular r) :
    Regular r F (resume limits cont v stack s) := by
  cases cont with
  | operand values rest env purpose =>
    obtain ⟨hvalues, hrest, hending, henv⟩ := hcont
    have hmore : ∀ w ∈ v :: values, w.Regular r := List.forall_mem_cons.mpr ⟨hv, hvalues⟩
    exact regular_nextOperand plain hmore hrest hending henv purpose hstack hs
  | branch consequent alternative env =>
    obtain ⟨hconsequent, halternative, henv⟩ := hcont
    refine ⟨⟨?_, henv⟩, hstack, hs⟩
    split
    · exact halternative
    · exact hconsequent
  | second e env => exact ⟨hcont, hstack, hs⟩
  | bind name b =>
    obtain ⟨⟨n, rfl, hn⟩, hb⟩ := hcont
    exact regular_nextBinding plain refilled (hb.bind hn hv s) hstack (hs.of_frames rfl)
  | share rest env purpose =>
    obtain ⟨hrest, hending, henv⟩ := hcont
    rw [resume, Value.toList_of_ending hending]
    exact ⟨⟨hv, nofun, fun e he => hrest.of_mem he, henv⟩, hstack, hs⟩
  | inline sharing =>
    refine ⟨⟨hcont.head, ?_, hcont.rest, hcont.env⟩, hstack, hs⟩
    intro w hw
    rcases List.mem_cons.mp hw with hw | hw
    · cases hw
      exact hv
    · exact hcont.ready w hw

/-- A step keeps a run regular, if it may fail for a misplaced name in the expression that it
evaluates. -/
theorem regular_step (plain : ∀ fault, fault.IsPlain → F fault) (refilled : F .frameFilled)
    {c : Thread Unit × State Unit} (hc : Regular r F c)
    (misplaced : ∀ e env name, c.1.control = .enter e env ∨ c.1.control = .bounce e env →
      e.MisplacedName name → F (.improperTail name)) :
    Regular r F (step limits mode c.1 c.2) := by
  obtain ⟨⟨control, stack⟩, s⟩ := c
  obtain ⟨hcontrol, hstack, hs⟩ := hc
  dsimp only at hcontrol hstack hs misplaced
  cases control with
  | enter e env =>
    exact regular_evaluate plain refilled hcontrol.1 (fun name => misplaced e env name (.inl rfl))
      hcontrol.2 hstack hs
  | bounce e env =>
    exact regular_evaluate plain refilled hcontrol.1 (fun name => misplaced e env name (.inr rfl))
      hcontrol.2 hstack hs
  | give v =>
    cases stack with
    | nil => exact ⟨hcontrol, hstack, hs⟩
    | cons cont stack =>
      obtain ⟨hcont, hwaiting⟩ := List.forall_mem_cons.mp hstack
      exact regular_resume plain refilled hcont hcontrol hwaiting hs
  | _ => exact ⟨hcontrol, hstack, hs⟩

end Machine

/-! ## Runs -/

def globalList : Value Unit := .ofSExpr (.ofList (globalNames.map .atom))

lemma State.globalEnv_unit (s : State Unit) :
    s.globalEnv = ([⟨(), s.frames.size⟩],
      { s with frames := s.frames.push (.filled globalList globalList) }) := rfl

lemma written_globalList : globalList.Written := by
  refine Value.written_ofSExpr ?_
  decide

lemma isParameters_globalList : globalList.IsParameters := by
  refine Value.isParameters_of_badParameter? rfl ?_
  decide

namespace Machine

variable {r : Course} {limits : Limits}

/-- The thread and the state with which a program that has been read begins. -/
def ofProgram (program : SExpr) (s : State Unit) : Thread Unit × State Unit :=
  let s := s.log (.programRead program)
  let (expr, s) := s.load program
  let (env, s) := s.globalEnv
  (.start expr env, s)

lemma ofProgram_eq (program : SExpr) (s : State Unit) :
    ofProgram program s = (.start (.ofSExpr program) [⟨(), s.frames.size⟩],
      { s.log (.programRead program) with
        frames := s.frames.push (.filled globalList globalList) }) := by
  simp only [ofProgram, State.load_unit, State.globalEnv_unit]
  rfl

/-- The expression is evaluated in the course of a run. -/
def Evaluates (limits : Limits) (start : Thread Unit × State Unit) (e : Value Unit) : Prop :=
  ∃ c env, Reaches limits start c ∧ (c.1.control = .enter e env ∨ c.1.control = .bounce e env)

/-- The faults that a run may end in. -/
def MayFail (limits : Limits) (start : Thread Unit × State Unit) (fault : Fault) : Prop :=
  fault.IsPlain ∨ fault = .frameFilled ∨
    ∃ e name, fault = .improperTail name ∧ e.MisplacedName name ∧ Evaluates limits start e

theorem regular_reaches {start c : Thread Unit × State Unit}
    (hstart : Regular r (MayFail limits start) start) (h : Reaches limits start c) :
    Regular r (MayFail limits start) c := by
  induction h with
  | refl => exact hstart
  | @tail b c hreach hstep ih =>
    rw [← hstep]
    refine regular_step (fun _ => .inl) (.inr (.inl rfl)) ih ?_
    intro e env name hcontrol hname
    exact .inr (.inr ⟨e, name, rfl, hname, b, env, hreach, hcontrol⟩)

def courseOf {program : SExpr} (h : program.Readable) (s : State Unit) : Course :=
  ⟨.ofSExpr program, Value.written_ofSExpr h, s.frames.size⟩

lemma regular_ofProgram {program : SExpr} (h : program.Readable) (s : State Unit)
    (F : Fault → Prop) : Regular (courseOf h s) F (ofProgram program s) := by
  have hregular : globalList.Regular (courseOf h s) := .of_written written_globalList
  have hframe : (Frame.filled globalList globalList).Regular (courseOf h s) :=
    ⟨isParameters_globalList, hregular, isParameters_globalList.1, rfl⟩
  have hs : s.Regular (courseOf h s) := by
    refine ⟨Nat.le_refl _, ?_⟩
    intro n frame hn hfound
    exact absurd (lt_size_of_getElem? hfound) (Nat.not_lt.mpr hn)
  rw [ofProgram_eq]
  refine ⟨⟨.whole, ?_⟩, nofun, hs.push hframe rfl⟩
  intro rib hrib
  rw [List.mem_singleton.mp hrib]
  exact Nat.le_refl _

end Machine

/-- What an interpreter does in order is a run of the machine. -/
lemma Interpreter.eval_inOrder {limits : Limits} {code : String} {program : SExpr}
    (accepted : read limits.nesting code = .ok program) (fuel : Nat) (s : State Unit) :
    Interpreter.eval fuel limits ⟨.inOrder⟩ code s =
      (Machine.runUntil Thread.outcome? limits fuel (Machine.ofProgram program s).1
        (Machine.ofProgram program s).2).map fun r => (r.1, ⟨.inOrder⟩, r.2) := by
  rw [Interpreter.eval, Interpreter.load, accepted]
  dsimp only [Evaluation.evaluate, Evaluation.execute, Machine.ofProgram]
  split
  · rename_i hnone
    split at hnone
    · rename_i hrun
      rw [hrun]
      rfl
    · cases hnone
  · rename_i hsome
    split at hsome
    · cases hsome
    · rename_i hrun
      cases hsome
      rw [hrun]
      rfl

/-- What an interpreter does that shares out operands. -/
lemma Interpreter.eval_shared {limits : Limits} {code : String} {program : SExpr}
    (accepted : read limits.nesting code = .ok program) (crew : Crew) (fuel : Nat)
    (s : State Unit) :
    Interpreter.eval fuel limits ⟨.shared crew⟩ code s =
      ((Pool.ofThread crew (Machine.ofProgram program s).1
        (Machine.ofProgram program s).2).runUntil Thread.outcome? limits fuel).bind fun r =>
          (r.2.settle limits fuel 1).map fun p => (r.1, ⟨.shared p.crew⟩, p.state) := by
  rw [Interpreter.eval, Interpreter.load, accepted]
  dsimp only [Evaluation.evaluate, Evaluation.execute, Machine.ofProgram]
  split
  · rename_i hnone
    split at hnone
    · rename_i hrun
      rw [hrun]
      rfl
    · rename_i hrun
      rw [hrun]
      dsimp only [Option.bind]
      split at hnone
      · rename_i hsettle
        rw [hsettle]
        rfl
      · cases hnone
  · rename_i hsome
    split at hsome
    · cases hsome
    · rename_i hrun
      rw [hrun]
      dsimp only [Option.bind]
      split at hsome
      · cases hsome
      · rename_i hsettle
        rw [hsettle]
        cases hsome
        rfl

lemma Interpreter.reaches_of_eval {limits : Limits} {code : String} {program : SExpr}
    (accepted : read limits.nesting code = .ok program) {fuel : Nat} {s s' : State Unit}
    {outcome : Except Fault (Value Unit)} {interpreter : Interpreter}
    (h : Interpreter.eval fuel limits ⟨.inOrder⟩ code s = some (outcome, interpreter, s')) :
    ∃ thread, Machine.Reaches limits (Machine.ofProgram program s) (thread, s') ∧
      thread.outcome? = some outcome := by
  rw [eval_inOrder accepted] at h
  obtain ⟨⟨outcome', s₁⟩, hrun, hresult⟩ := Option.map_eq_some_iff.mp h
  cases hresult
  exact Machine.reaches_of_runUntil hrun

lemma Interpreter.mayFail_of_run {limits : Limits} {code : String} {program : SExpr}
    (accepted : read limits.nesting code = .ok program) {fuel : Nat} {s s' : State Unit}
    {fault : Fault} {interpreter : Interpreter}
    (h : Interpreter.run fuel limits ⟨.inOrder⟩ code s = some (.error fault, interpreter, s')) :
    Machine.MayFail limits (Machine.ofProgram program s) fault := by
  have hregular := Machine.regular_ofProgram (readable_of_read accepted).1 s
    (Machine.MayFail limits (Machine.ofProgram program s))
  rw [Interpreter.run] at h
  split at h
  · cases h
  · rename_i heval
    cases h
    obtain ⟨thread, hreach, houtcome⟩ := reaches_of_eval accepted heval
    have hend := (Machine.regular_reaches hregular hreach).control
    rw [Thread.of_outcome_error houtcome] at hend
    exact hend
  · rename_i v _ _ heval
    simp only [Option.some.injEq, Prod.mk.injEq] at h
    obtain ⟨hprint, -, -⟩ := h
    obtain ⟨thread, hreach, houtcome⟩ := reaches_of_eval accepted heval
    have hend := (Machine.regular_reaches hregular hreach).control
    rw [Thread.of_outcome_ok houtcome] at hend
    rw [Value.Regular.tooDeep_of_print hend hprint]
    exact .inl trivial

/-- Atoms, pairs, and closures of lambda expressions with a list of parameters. -/
def Value.IsWellFormed : Value Unit → Prop
  | .atom _ => True
  | .pair _ _ _ => True
  | .closure _ lambda formals body _ =>
    lambda = .pair () (.atom "lambda") (.pair () formals (.pair () body .nil)) ∧
      formals.IsParameters
  | .foreign _ => False

/-- A pending frame binds nothing, and a filled one binds names to as many values. -/
def Frame.IsWellFormed : Frame Unit → Prop
  | .pending => ∀ name, (pending : Frame Unit).find name = none
  | .filled names values =>
    names.IsParameters ∧ values.ending = .nil ∧ values.length = names.length

def Operand.value? : Operand Unit → Option (Value Unit)
  | .ready v => some v
  | .task _ => none

lemma Operand.mem_of_mem_values {underway : List (Operand Unit)} {v : Value Unit}
    (h : v ∈ underway.filterMap Operand.value?) : .ready v ∈ underway := by
  obtain ⟨operand, hmem, hv⟩ := List.mem_filterMap.mp h
  cases operand with
  | ready w =>
    cases hv
    exact hmem
  | task number => cases hv

def Sharing.values (sharing : Sharing Unit) : List (Value Unit) :=
  sharing.head :: sharing.underway.filterMap Operand.value?

def Control.values : Control Unit → List (Value Unit)
  | .give v => [v]
  | .fork sharing => sharing.values
  | .submit _ sharing => sharing.values
  | .join head values underway _ => head :: (values ++ underway.filterMap Operand.value?)
  | _ => []

def Cont.values : Cont Unit → List (Value Unit)
  | .operand values _ _ _ => values
  | .bind _ b => b.values.elements
  | .inline sharing => sharing.values
  | _ => []

/-- The values of a thread, of the evaluations waiting, and in frames from number `base` on. -/
inductive Machine.Holds (base : Nat) (c : Thread Unit × State Unit) (v : Value Unit) : Prop where
  | control (h : v ∈ c.1.control.values)
  | stack {cont : Cont Unit} (hcont : cont ∈ c.1.stack) (h : v ∈ cont.values)
  | frame {n : Nat} {names values : Value Unit} (hn : base ≤ n)
      (hframe : c.2.frames[n]? = some (.filled names values)) (h : v ∈ values.elements)

lemma Value.Regular.isWellFormed {r : Course} {v : Value Unit} (h : v.Regular r) :
    v.IsWellFormed := by
  cases h with
  | atom name => trivial
  | pair _ _ => trivial
  | closure _ parameters _ => exact ⟨rfl, parameters⟩

lemma Frame.Regular.isWellFormed {r : Course} {frame : Frame Unit} (h : frame.Regular r) :
    frame.IsWellFormed := by
  cases frame with
  | pending => exact fun _ => rfl
  | filled names values => exact ⟨h.1, h.2.2.1, h.2.2.2⟩

lemma Sharing.Regular.of_mem {r : Course} {sharing : Sharing Unit} (h : sharing.Regular r)
    {v : Value Unit} (hv : v ∈ sharing.values) : v.Regular r := by
  rcases List.mem_cons.mp hv with rfl | hv
  · exact h.head
  · exact h.ready v (Operand.mem_of_mem_values hv)

lemma Machine.Regular.holds {r : Course} {F : Fault → Prop} {c : Thread Unit × State Unit}
    (hc : Machine.Regular r F c) {v : Value Unit} (h : Machine.Holds r.base c v) :
    v.Regular r := by
  have hcontrol := hc.control
  cases h with
  | control h =>
    generalize c.1.control = control at h hcontrol
    cases control with
    | give w =>
      rw [List.mem_singleton.mp h]
      exact hcontrol
    | fork sharing => exact Sharing.Regular.of_mem hcontrol h
    | submit e sharing => exact hcontrol.2.of_mem h
    | join head values underway purpose =>
      obtain ⟨hhead, hvalues, hready⟩ := hcontrol
      rcases List.mem_cons.mp h with rfl | h
      · exact hhead
      · rcases List.mem_append.mp h with h | h
        · exact hvalues v h
        · exact hready v (Operand.mem_of_mem_values h)
    | _ => cases h
  | @stack cont hcont h =>
    have hregular := hc.stack cont hcont
    cases cont with
    | operand values rest env purpose => exact hregular.1 v h
    | bind name b => exact hregular.2.values.part (.of_mem .whole h)
    | inline sharing => exact Sharing.Regular.of_mem hregular h
    | _ => cases h
  | frame hn hframe h =>
    have hregular := hc.state.frames _ _ hn hframe
    exact hregular.2.1.part (.of_mem .whole h)

/-- In every state that the evaluation of a program in order comes through, the expression
evaluated is a part of the program, every frame is empty or binds a list of names to a list of as
many values, and every value is an atom, a pair, or the closure of a lambda expression. So no run
of a program ends because something cannot be evaluated or printed, and it ends because of a chain
that is no list only for a name in the place of a list of parameters or of bindings. -/
theorem program_stays_well_formed {limits : Limits} {code : String} {program : SExpr}
    (accepted : read limits.nesting code = .ok program) (s : State Unit) :
    (∀ c, Machine.Reaches limits (Machine.ofProgram program s) c →
      (∀ e env, c.1.control = .enter e env ∨ c.1.control = .bounce e env →
        e.PartOf (.ofSExpr program)) ∧
      (∀ n frame, s.frames.size ≤ n → c.2.frames[n]? = some frame → frame.IsWellFormed) ∧
      ∀ v w : Value Unit, Machine.Holds s.frames.size c v → w.PartOf v → w.IsWellFormed) ∧
    ∀ fuel result interpreter s',
      Interpreter.run fuel limits ⟨.inOrder⟩ code s = some (result, interpreter, s') →
      (∀ shown, result ≠ .error (.cannotEvaluate shown)) ∧
      (∀ shown, result ≠ .error (.cannotPrint shown)) ∧
      ∀ tail, result = .error (.improperTail tail) →
        ∃ e, Machine.Evaluates limits (Machine.ofProgram program s) e ∧ e.MisplacedName tail := by
  have hreadable := (readable_of_read accepted).1
  have hregular : ∀ c, Machine.Reaches limits (Machine.ofProgram program s) c →
      Machine.Regular (Machine.courseOf hreadable s)
        (Machine.MayFail limits (Machine.ofProgram program s)) c :=
    fun c hc => Machine.regular_reaches (Machine.regular_ofProgram hreadable s _) hc
  refine ⟨?_, ?_⟩
  · intro c hc
    have h := hregular c hc
    refine ⟨?_, ?_, ?_⟩
    · intro e env hcontrol
      have hexpr := h.control
      rcases hcontrol with hcontrol | hcontrol
      · rw [hcontrol] at hexpr
        exact hexpr.1
      · rw [hcontrol] at hexpr
        exact hexpr.1
    · intro n frame hn hframe
      exact (h.state.frames n frame hn hframe).isWellFormed
    · intro v w hv hw
      exact ((h.holds hv).part hw).isWellFormed
  · intro fuel result interpreter s' hrun
    refine ⟨?_, ?_, ?_⟩
    · rintro shown rfl
      rcases Interpreter.mayFail_of_run accepted hrun with hplain | hfilled | ⟨e, name, htail, -⟩
      · exact hplain
      · cases hfilled
      · cases htail
    · rintro shown rfl
      rcases Interpreter.mayFail_of_run accepted hrun with hplain | hfilled | ⟨e, name, htail, -⟩
      · exact hplain
      · cases hfilled
      · cases htail
    · rintro tail rfl
      rcases Interpreter.mayFail_of_run accepted hrun with hplain | hfilled |
        ⟨e, name, htail, hname, hevaluated⟩
      · exact hplain.elim
      · cases hfilled
      · cases htail
        exact ⟨e, hevaluated, hname⟩

/-- While the second operand is evaluated, which has a name for its parameters, the closure of the
first is at hand. -/
theorem well_formed_beside_misplaced_name :
    let code := "(list (lambda (x) x) (lambda x x))"
    let x : SExpr := .atom "x"
    let program := SExpr.ofList
      [.atom "list", .ofList [.atom "lambda", .ofList [x], x], .ofList [.atom "lambda", x, x]]
    let misplaced : Value Unit := .ofSExpr (.ofList [.atom "lambda", x, x])
    let v : Value Unit := .closure () (.ofSExpr (.ofList [.atom "lambda", .ofList [x], x]))
      (.ofSExpr (.ofList [x])) (.atom "x") [⟨(), 0⟩]
    read none code = .ok program ∧
      (∃ c, Machine.Reaches .none (Machine.ofProgram program .empty) c ∧
        c.1.control = .enter misplaced [⟨(), 0⟩] ∧ misplaced.PartOf (.ofSExpr program) ∧
        Machine.Holds 0 c v ∧ v.IsWellFormed) ∧
      ∃ interpreter s', Interpreter.run 9 .none ⟨.inOrder⟩ code .empty =
          some (.error (.improperTail "x"), interpreter, s') ∧
        ∃ e, Machine.Evaluates .none (Machine.ofProgram program .empty) e ∧
          e.MisplacedName "x" := by
  intro code x program misplaced v
  have accepted : read Limits.none.nesting code = .ok program := by decide +kernel
  obtain ⟨hstates, hends⟩ := program_stays_well_formed accepted .empty
  let start := Machine.ofProgram program .empty
  let first := Machine.step .none .inOrder start.1 start.2
  let second := Machine.step .none .inOrder first.1 first.2
  let third := Machine.step .none .inOrder second.1 second.2
  have hreach : Machine.Reaches .none (Machine.ofProgram program .empty) third :=
    .tail (.tail (.single rfl) rfl) rfl
  have hcontrol : third.1.control = .enter misplaced [⟨(), 0⟩] := by decide +kernel
  have hstack : third.1.stack = [.operand [v] .nil [⟨(), 0⟩] .collect] := by decide +kernel
  have hwaiting : Cont.operand [v] .nil [⟨(), 0⟩] .collect ∈ third.1.stack := by
    rw [hstack]
    exact List.mem_cons_self
  have hholds : Machine.Holds 0 third v := .stack hwaiting List.mem_cons_self
  obtain ⟨hparts, -, hvalues⟩ := hstates third hreach
  have hrun : (Interpreter.run 9 .none ⟨.inOrder⟩ code .empty).map (fun r => r.1) =
      some (.error (.improperTail "x")) := by decide +kernel
  obtain ⟨⟨result, interpreter, s'⟩, hsome, hresult⟩ := Option.map_eq_some_iff.mp hrun
  cases hresult
  obtain ⟨-, -, himproper⟩ := hends _ _ _ _ hsome
  exact ⟨accepted, ⟨third, hreach, hcontrol, hparts _ _ (.inl hcontrol), hholds,
    hvalues v v hholds .whole⟩, interpreter, s', hsome, himproper _ rfl⟩

end Evlis
