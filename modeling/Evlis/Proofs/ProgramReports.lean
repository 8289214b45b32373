import Evlis.CommandLine
import Evlis.Proofs.Grammar
import Evlis.Proofs.WellFormedness

/-!
# How programs are reported

With nothing but a file and the echo chosen, a program that comes to its end is reported by its
value and status 0, or by an error and status 1, behind what it has printed. There is one
exception: where a number has too many digits, the run ends without a status.
-/

namespace Evlis

/-- Numbers of more digits than are turned into integers, or from integers into text. -/
def Fault.IsDigits : Fault → Prop
  | operandDigits digits => Text.digitLimit < digits
  | resultDigits => True
  | _ => False

lemma Fault.IsDigits.not_reported {fault : Fault} (h : fault.IsDigits) :
    ¬ (fault.kind.isLanguage = true ∨ fault = .tooDeep) := by
  cases fault with
  | operandDigits digits => simp [kind, Kind.isLanguage]
  | resultDigits => simp [kind, Kind.isLanguage]
  | _ => exact h.elim

/-- Plain faults are faults of the language, but for what is too deep and for digits. -/
lemma Fault.IsPlain.cases {fault : Fault} (h : fault.IsPlain) :
    (fault.kind.isLanguage = true ∨ fault = .tooDeep) ∨ fault.IsDigits := by
  cases fault with
  | tooDeep => exact .inl (.inr rfl)
  | operandDigits digits => exact .inr h
  | resultDigits => exact .inr trivial
  | crewClosed => exact h.elim
  | noThread => exact h.elim
  | noWorkers => exact h.elim
  | tooManyReleases => exact h.elim
  | _ => exact .inl (.inl rfl)

/-- Whatever text is run, in order: it fails for a fault of the language, for its depth, or for
digits. -/
lemma Interpreter.fault_cases_of_run {limits : Limits} {code : String} {fuel : Nat}
    {s s' : State Unit} {fault : Fault} {interpreter : Interpreter}
    (h : Interpreter.run fuel limits ⟨.inOrder⟩ code s = some (.error fault, interpreter, s')) :
    (fault.kind.isLanguage = true ∨ fault = .tooDeep) ∨ fault.IsDigits := by
  cases hread : read limits.nesting code with
  | error unread =>
    rw [Interpreter.run, Interpreter.eval, Interpreter.load, hread] at h
    cases h
    obtain ⟨cause, rfl⟩ := unreadable_of_read hread
    exact .inl (.inl rfl)
  | ok program =>
    rcases mayFail_of_run hread h with hplain | rfl | ⟨e, name, rfl, -⟩
    · exact hplain.cases
    · exact .inl (.inl rfl)
    · exact .inl (.inl rfl)

lemma Interpreter.runOnce_of_run {limits : Limits} {code : String} {fuel : Nat}
    {result : Except Fault String} {interpreter : Interpreter} {s : State Unit}
    (finished : Interpreter.run fuel limits ⟨.inOrder⟩ code (State.empty.log (.created false)) =
      some (result, interpreter, s)) :
    (Interpreter.mk .inOrder).runOnce fuel limits code = some (result, s) := by
  have hcreated : (Interpreter.mk .inOrder).parallel = false := rfl
  rw [Interpreter.run, Interpreter.eval] at finished
  rw [Interpreter.runOnce, hcreated]
  generalize Interpreter.load limits code (State.empty.log (.created false)) = loaded at finished ⊢
  obtain ⟨fault | ⟨e, env⟩, s₁⟩ := loaded
  · cases finished
    rfl
  · dsimp only [Evaluation.evaluate, Evaluation.execute, Evaluation.evaluateLast] at finished ⊢
    cases hrun : Machine.runUntil Thread.outcome? limits fuel (.start e env) s₁ with
    | none => simp [hrun] at finished
    | some r =>
      rw [hrun] at finished
      obtain ⟨fault | v, s₂⟩ := r <;> cases finished <;> rfl

namespace CommandLine

lemma eventNotices_of_warnings (events : Array (Event Unit)) : eventNotices 30 events = [] := by
  have hhidden : (events.toList.map Log.Record.ofEvent).filter (·.isShown 30) = [] := by
    rw [List.filter_eq_nil_iff]
    intro record hrecord
    obtain ⟨event, -, rfl⟩ := List.mem_map.mp hrecord
    simp [Log.Record.isShown, Log.Record.ofEvent]
  rw [eventNotices, Log.render, hhidden]
  rfl

lemma printedText_eq (lines : Array String) :
    printedText lines = String.join (lines.toList.map (· ++ "\n")) := by
  have hfrom : ∀ (lines : List String) (text : String),
      lines.foldl (fun text line => (text ++ line).push '\n') text =
        text ++ String.join (lines.map (· ++ "\n")) := by
    intro lines
    induction lines with
    | nil => simp
    | cons line lines ih =>
      intro text
      rw [List.foldl_cons, ih, List.map_cons, String.join_cons, String.push_eq_append]
      simp only [String.append_assoc]
      rfl
  rw [printedText, ← Array.foldl_toList, hfrom, String.empty_append]

def usualLimits : Limits := .ofCalls 20000

/-- If nothing is set, a program is run in order, and reports show warnings and more. -/
lemma run_eq_runOnce {fuel : Nat} {surroundings : Surroundings} {arguments : List String}
    {file : Option String} {echo : Bool} {source : String} (unset : surroundings.vars = [])
    (parsed : Options.parse arguments = .ok { file, echo })
    (found : programText surroundings file = .ok source) :
    run fuel surroundings arguments =
      ((Interpreter.mk .inOrder).runOnce fuel usualLimits source).map fun r =>
        conclude 30 (if echo then source ++ "\n" else "") r.1 r.2 := by
  have hconfig : Config.ofVariables [] = .ok {} := rfl
  have hthreshold : Log.threshold "WARNING" = .ok 30 := by decide +kernel
  have hshown : showFrom { file, echo } {} = .ok 30 := by
    rw [showFrom, if_neg nofun, hthreshold]
    rfl
  have hlimits : prepare { file, echo } {} = .ok usualLimits := rfl
  have hinterpreter : interpreter {} = .ok ⟨.inOrder⟩ := rfl
  have hecho : (if echo then source.push '\n' else "") = if echo then source ++ "\n" else "" := by
    rw [String.push_eq_append]
    rfl
  have hoverride : Config.override {} none none none = {} := rfl
  simp only [run, parsed, unset, hconfig, Choice.value?, hoverride, hshown, runWith, found, hlimits,
    hinterpreter, hecho]
  cases Interpreter.runOnce fuel usualLimits ⟨.inOrder⟩ source with
  | none => rfl
  | some r => rfl

/-- How the result of a program is reported behind `output` if warnings and more are shown. -/
def reportOf (output : String) : Except Fault String → Report
  | .ok value => ⟨.ok 0, output ++ value ++ "\n", []⟩
  | .error fault =>
    if fault.kind.isLanguage = true ∨ fault = .tooDeep then
      ⟨.ok 1, output, [.text ("error: " ++ fault.message ++ "\n")]⟩
    else ⟨.error (.fault fault), output, []⟩

lemma conclude_of_warnings (echoed : String) (result : Except Fault String) (s : State Unit) :
    conclude 30 echoed result s =
      reportOf (echoed ++ String.join (s.printed.toList.map (· ++ "\n"))) result := by
  have habort : ∀ kind, abortNotices 30 kind = [] := fun _ => rfl
  unfold conclude reportOf
  rw [eventNotices_of_warnings, printedText_eq]
  dsimp only
  cases result with
  | ok value =>
    dsimp only
    rw [String.push_eq_append]
    rfl
  | error fault =>
    dsimp only
    split
    · rename_i heq
      cases heq
    · rename_i heq
      cases heq
      have hmessage : "error: recursion too deep\n" =
          "error: " ++ Fault.message .tooDeep ++ "\n" := by decide
      rw [if_pos (.inr rfl), hmessage, List.nil_append]
    · rename_i hother heq
      cases heq
      have hreported : (fault.kind.isLanguage = true ∨ fault = .tooDeep) ↔
          fault.kind.isLanguage = true := by
        refine or_iff_left ?_
        rintro rfl
        exact hother rfl
      simp only [hreported, habort, List.nil_append]

lemma run_of_finished {fuel : Nat} {surroundings : Surroundings} {arguments : List String}
    {file : Option String} {echo : Bool} {source : String} {result : Except Fault String}
    {interpreter : Interpreter} {s : State Unit} (unset : surroundings.vars = [])
    (parsed : Options.parse arguments = .ok { file, echo })
    (found : programText surroundings file = .ok source)
    (finished : Interpreter.run fuel usualLimits ⟨.inOrder⟩ source
      (State.empty.log (.created false)) = some (result, interpreter, s)) :
    run fuel surroundings arguments = some (reportOf ((if echo then source ++ "\n" else "") ++
      String.join (s.printed.toList.map (· ++ "\n"))) result) := by
  have honce := Interpreter.runOnce_of_run finished
  rw [run_eq_runOnce unset parsed found, honce, Option.map_some, conclude_of_warnings]

/-- A program that comes to its end is reported by its value and status 0, or by an error and
status 1, behind the echo and the lines it has printed, unless a number has too many digits. -/
theorem run_reports_program {fuel : Nat} {surroundings : Surroundings} {arguments : List String}
    {file : Option String} {echo : Bool} {source : String} {result : Except Fault String}
    {interpreter : Interpreter} {s : State Unit} (unset : surroundings.vars = [])
    (parsed : Options.parse arguments = .ok { file, echo })
    (found : programText surroundings file = .ok source)
    (finished : Interpreter.run fuel usualLimits ⟨.inOrder⟩ source
      (State.empty.log (.created false)) = some (result, interpreter, s)) :
    let output := (if echo then source ++ "\n" else "") ++
      String.join (s.printed.toList.map (· ++ "\n"))
    (∃ value, result = .ok value ∧
      run fuel surroundings arguments = some ⟨.ok 0, output ++ value ++ "\n", []⟩) ∨
    (∃ fault, result = .error fault ∧ (fault.kind.isLanguage = true ∨ fault = .tooDeep) ∧
      run fuel surroundings arguments =
        some ⟨.ok 1, output, [.text ("error: " ++ fault.message ++ "\n")]⟩) ∨
    ∃ fault, result = .error fault ∧ fault.IsDigits ∧
      run fuel surroundings arguments = some ⟨.error (.fault fault), output, []⟩ := by
  intro output
  rw [run_of_finished unset parsed found finished]
  cases result with
  | ok value => exact .inl ⟨value, rfl, rfl⟩
  | error fault =>
    rcases Interpreter.fault_cases_of_run finished with hreported | hdigits
    · refine .inr (.inl ⟨fault, rfl, hreported, ?_⟩)
      rw [reportOf, if_pos hreported]
    · refine .inr (.inr ⟨fault, rfl, hdigits, ?_⟩)
      rw [reportOf, if_neg hdigits.not_reported]

/-- A program that prints a line and then fails. -/
theorem report_of_printing_and_failing :
    let source := "(prog2 (print 1) (car 2))"
    let surroundings : Surroundings := ⟨[], fun _ => .error .missing, source⟩
    run 20 surroundings ["--no-echo"] =
      some ⟨.ok 1, "1\n", [.text "error: car of non-pair 2\n"]⟩ := by
  intro source surroundings
  have parsed : Options.parse ["--no-echo"] = .ok { file := none, echo := false } := by
    decide +kernel
  have found : programText surroundings none = .ok source := by decide +kernel
  have hrun : (Interpreter.run 20 usualLimits ⟨.inOrder⟩ source
      (State.empty.log (.created false))).map (fun r => (r.1, r.2.2.printed)) =
        some (.error (.carOfNonPair "2"), #["1"]) := by decide +kernel
  obtain ⟨⟨result, interpreter, s⟩, finished, hresult⟩ := Option.map_eq_some_iff.mp hrun
  obtain ⟨rfl, hprinted⟩ := Prod.mk.inj hresult
  dsimp only at hprinted
  rcases run_reports_program rfl parsed found finished with
    ⟨value, hvalue, -⟩ | ⟨fault, hfault, -, hreport⟩ | ⟨fault, hfault, hdigits, -⟩
  · cases hvalue
  · cases hfault
    have houtput : (if false = true then source ++ "\n" else "") ++
        String.join (#["1"].toList.map (· ++ "\n")) = "1\n" := by decide
    have hmessage : "error: " ++ (Fault.carOfNonPair "2").message ++ "\n" =
        "error: car of non-pair 2\n" := by decide
    rw [hreport, hprinted, houtput, hmessage]
  · cases hfault
    exact hdigits.elim

lemma text_of_sum (name : String) :
    (Value.ofSExpr (.ofList [.atom "+", .atom "1", .atom name])).text = "(+ 1 " ++ name ++ ")" := by
  simp [SExpr.ofList, SExpr.ofReversed, SExpr.nil, Value.text, Value.write, Value.writeRest]

/-- A sum fails for the digits of its second operand. -/
lemma run_sum_of_digits {name : String} (hname : SExpr.IsName name)
    (hinteger : Name.isInteger name = true) (hmany : Text.digitLimit < Name.digitCount name) :
    ∃ s, s.printed = #[] ∧
      Interpreter.run 9 usualLimits ⟨.inOrder⟩ ("(+ 1 " ++ name ++ ")")
        (State.empty.log (.created false)) =
        some (.error (.operandDigits (Name.digitCount name)), ⟨.inOrder⟩, s) := by
  let e : SExpr := .ofList [.atom "+", .atom "1", .atom name]
  let c := Machine.ofProgram e (State.empty.log (.created false))
  let stack : List (Cont Unit) := [.operand [.atom "1", .atom "+"] .nil [⟨(), 0⟩] .call]
  have hread : read usualLimits.nesting ("(+ 1 " ++ name ++ ")") = .ok e := by
    have hreadable : e.Readable :=
      ⟨by decide, ⟨by decide, ⟨hname, by decide, rfl⟩, rfl⟩, rfl⟩
    have hdepth : e.depth = 1 := rfl
    have hshallow : SExpr.Shallow usualLimits.nesting e.depth := by
      rw [hdepth]
      decide
    rw [← text_of_sum]
    exact read_text _ e hreadable hshallow
  have hreached : Machine.runUntil Thread.outcome? usualLimits 9 c.1 c.2 =
      Machine.runUntil Thread.outcome? usualLimits 4 ⟨.enter (.atom name) [⟨(), 0⟩], stack⟩ c.2 :=
    rfl
  have hgiven : Machine.step usualLimits .inOrder ⟨.enter (.atom name) [⟨(), 0⟩], stack⟩ c.2 =
      (⟨.give (.atom name), stack⟩, c.2) := by
    simp [Machine.step, Machine.evaluate, hinteger, Machine.give]
  have hrefused : Primitive.calculate usualLimits .add (.atom "1") (.atom name : Value Unit) =
      .error (.operandDigits (Name.digitCount name)) := by
    have hfirst : ∀ symbol, Primitive.operand usualLimits symbol (.atom "1" : Value Unit) =
        .ok 1 := fun _ => rfl
    have hsecond : ∀ symbol, Primitive.operand usualLimits symbol (.atom name : Value Unit) =
        .error (.operandDigits (Name.digitCount name)) := by
      intro symbol
      rw [Primitive.operand, if_pos hinteger, Name.toInt, if_neg (Nat.not_le.mpr hmany)]
    rw [Primitive.calculate, Primitive.operands, hfirst, hsecond]
  have hfailed : Machine.step usualLimits .inOrder ⟨.give (.atom name), stack⟩ c.2 =
      (⟨.fail (.operandDigits (Name.digitCount name)), []⟩, c.2) := by
    let arguments : Value Unit := .pair () (.atom "1") (.pair () (.atom name) .nil)
    have hcall : Machine.step usualLimits .inOrder ⟨.give (.atom name), stack⟩ c.2 =
        Machine.apply usualLimits (.pair () (.atom "+") arguments) [] c.2 := rfl
    have hprimitive : Primitive.apply usualLimits "+" arguments c.2 =
        (Primitive.calculate usualLimits .add (.atom "1") (.atom name), c.2) := rfl
    rw [hcall, Machine.apply, hprimitive, hrefused]
    rfl
  have hend : Machine.runUntil Thread.outcome? usualLimits 9 c.1 c.2 =
      some (.error (.operandDigits (Name.digitCount name)), c.2) := by
    rw [hreached]
    simp only [Machine.runUntil, Thread.outcome?, hgiven]
    simp only [stack] at hfailed ⊢
    simp only [hfailed]
  refine ⟨c.2, rfl, ?_⟩
  rw [Interpreter.run, Interpreter.eval_inOrder hread, hend]
  rfl

/-- A name of ones is spelled by texts and reads as an integer of as many digits. -/
lemma name_of_ones (n : Nat) :
    let name := String.ofList (List.replicate (n + 1) '1')
    SExpr.IsName name ∧ Name.isInteger name = true ∧ Name.digitCount name = n + 1 := by
  intro name
  have hchars : name.toList = List.replicate (n + 1) '1' := String.toList_ofList
  have hunsigned : Name.unsigned (List.replicate (n + 1) '1') = List.replicate (n + 1) '1' := by
    rw [List.replicate_succ]
    rfl
  have hones : ∀ c ∈ List.replicate (n + 1) '1', c = '1' := fun c hc => List.eq_of_mem_replicate hc
  refine ⟨⟨?_, ?_⟩, ?_, ?_⟩
  · intro h
    rw [← String.toList_inj, hchars] at h
    cases h
  · intro c hc
    rw [hchars] at hc
    rw [hones c hc]
    decide
  · rw [Name.isInteger, hchars, hunsigned, Bool.and_eq_true, List.all_eq_true]
    refine ⟨rfl, ?_⟩
    intro c hc
    rw [hones c hc]
    decide
  · rw [Name.digitCount, hchars, hunsigned, List.length_replicate]

/-- A number of 4301 digits ends a run without a status. -/
theorem run_escapes_for_digits :
    let source := "(+ 1 " ++ String.ofList (List.replicate 4301 '1') ++ ")"
    run 9 ⟨[], fun _ => .error .missing, source⟩ ["--no-echo"] =
      some ⟨.error (.fault (.operandDigits 4301)), "", []⟩ := by
  intro source
  obtain ⟨hname, hinteger, hdigits⟩ := name_of_ones 4300
  have hmany : Text.digitLimit < Name.digitCount (String.ofList (List.replicate 4301 '1')) := by
    rw [hdigits]
    decide
  obtain ⟨s, hprinted, finished⟩ := run_sum_of_digits hname hinteger hmany
  have parsed : Options.parse ["--no-echo"] = .ok { file := none, echo := false } := by
    decide +kernel
  have found : programText ⟨[], fun _ => .error .missing, source⟩ none = .ok source := by
    have hlines : '\r' ∉ source.toList := by
      simp only [source, String.toList_append, String.toList_ofList, List.mem_append,
        List.mem_replicate]
      decide
    exact congrArg Except.ok (Text.unifyLines_eq hlines)
  rw [run_of_finished rfl parsed found finished, hprinted, hdigits]
  rfl

end CommandLine

end Evlis
