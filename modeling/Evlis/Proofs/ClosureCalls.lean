import Evlis.Proofs.Regularity

/-!
# Calls of closures

A closure that a lambda expression evaluates to takes as many arguments as it has parameters. Its
body sees the argument at the first place where a name stands among the parameters, and otherwise
what the environment of the lambda expression says, wherever the call is made. Main statement:
`closure_application_law`.
-/

namespace Evlis

variable {ι : Type}

section Places

variable [DecidableEq ι]

lemma Value.alike_atom (v : Value ι) (name : String) :
    v.alike (.atom name) = (v == .atom name) := by
  cases v with
  | atom other => simp [alike]
  | _ => simp [alike]

/-- In a frame with as many values as names, a name has the value at its first place. -/
lemma Frame.findIn_eq_getElem? {names values : Value ι}
    (length : names.elements.length = values.elements.length) (name : String) :
    findIn (.atom name) names values =
      values.elements[names.elements.idxOf (.atom name)]? := by
  induction names generalizing values with
  | pair mark n names _ ih =>
    cases values with
    | pair mark' v values =>
      simp only [Value.elements_pair, List.length_cons, Nat.add_right_cancel_iff] at length
      rw [findIn, Value.alike_atom, Value.elements_pair, Value.elements_pair, List.idxOf_cons]
      cases n == .atom name with
      | true => rfl
      | false => exact ih length
    | _ => rfl
  | _ =>
    cases values with
    | pair mark' v values =>
      rw [Value.elements_pair, List.length_cons] at length
      cases length
    | _ => rfl

namespace State

lemma lookup?_congr {s s' : State ι} {env : Env ι}
    (h : ∀ rib ∈ env, s'.frames[rib.frame]? = s.frames[rib.frame]?) (name : Value ι) :
    s'.lookup? name env = s.lookup? name env := by
  induction env with
  | nil => rfl
  | cons rib env ih =>
    rw [lookup?, lookup?, h rib (by simp), ih fun rib hrib => h rib (by simp [hrib])]

lemma lookup_congr {s s' : State ι} {env : Env ι}
    (h : ∀ rib ∈ env, s'.frames[rib.frame]? = s.frames[rib.frame]?) (limits : Limits)
    (name : Value ι) : s'.lookup limits env name = s.lookup limits env name := by
  rw [lookup, lookup, lookup?_congr h]

lemma lookup_of_find {s : State ι} {rib : Rib ι} {frame : Frame ι} {name v : Value ι}
    (hframe : s.frames[rib.frame]? = some frame) (found : frame.find name = some v)
    (limits : Limits) (env : Env ι) : s.lookup limits (rib :: env) name = .ok v := by
  rw [lookup, lookup?, hframe]
  simp [found]

lemma lookup_of_not_find {s : State ι} {rib : Rib ι} {frame : Frame ι} {name : Value ι}
    (hframe : s.frames[rib.frame]? = some frame) (absent : frame.find name = none)
    (limits : Limits) (env : Env ι) :
    s.lookup limits (rib :: env) name = s.lookup limits env name := by
  rw [lookup, lookup?, hframe]
  simp [absent, lookup]

end State

end Places

lemma Value.Written.obstacle_none {v : Value ι} (h : v.Written) : v.obstacle none = none := by
  induction v with
  | atom name => rfl
  | pair mark car cdr ihCar ihCdr => simp [Value.obstacle, ihCar h.1, ihCdr h.2.1]
  | _ => exact h.elim

namespace Machine

variable [DecidableEq ι] [Marking ι] {limits : Limits}

/-- A lambda expression that has a value is well formed, and its value is the closure of it. -/
lemma closure_of_evaluate {mode : Mode} {mark : ι} {tail v : Value ι} {env : Env ι}
    {stack : List (Cont ι)} {s s₁ : State ι}
    (made : evaluate limits mode (.pair mark (.atom "lambda") tail) env stack s =
      (⟨.give v, stack⟩, s₁)) :
    ∃ formals body, tail.elements = [formals, body] ∧ formals.IsParameters ∧
      (v, s₁) = s.close tail formals body env := by
  have hdemand : evaluate limits mode (.pair mark (.atom "lambda") tail) env stack s =
      pursue limits mode env stack s (Demand.ofForm limits .lambda tail) :=
    evaluate_eq_pursue limits mode _ env stack s
  rw [hdemand] at made
  unfold Demand.ofForm at made
  cases hparts : tail.toList limits with
  | error fault => simp [hparts, pursue, fail] at made
  | ok parts =>
    rcases parts with _ | ⟨formals, _ | ⟨body, _ | ⟨_, _⟩⟩⟩
    · simp [hparts, pursue, fail] at made
    · simp [hparts, pursue, fail] at made
    · simp only [hparts, Demand.ofLambda] at made
      cases hbad : badParameter? formals.elements with
      | some formal => simp [hbad, pursue, fail] at made
      | none =>
        cases hnil : formals.ending.isNil with
        | false => simp [hbad, hnil, pursue, fail] at made
        | true =>
          simp only [hbad, hnil, if_true, pursue, give, Prod.mk.injEq, Thread.mk.injEq,
            Control.give.injEq, and_true] at made
          exact ⟨formals, body, Value.elements_of_toList hparts,
            Value.isParameters_of_badParameter? (Value.isNil_iff.mp hnil) hbad,
            Prod.ext made.1.symm made.2.symm⟩
    · simp [hparts, pursue, fail] at made

/-- What the body of a closure sees: at the first place of a name among the parameters, the argument
there, and otherwise what the environment of the closure says, which is as it was. -/
structure BoundByPlace (limits : Limits) (formals arguments : Value ι) (env : Env ι) (s : State ι)
    (env' : Env ι) (s' : State ι) : Prop where
  parameter : ∀ name, .atom name ∈ formals.elements →
    ∃ v, arguments.elements[formals.elements.idxOf (.atom name)]? = some v ∧
      s'.lookup limits env' (.atom name) = .ok v
  outer : ∀ name, .atom name ∉ formals.elements →
    s'.lookup limits env' (.atom name) = s.lookup limits env (.atom name)
  captured : ∃ rib, env' = rib :: env
  unchanged : ∀ n < s.frames.size, s'.frames[n]? = s.frames[n]?
  outside : ∀ name, s'.lookup limits env name = s.lookup limits env name

lemma boundByPlace_extend {formals arguments : Value ι} {env : Env ι} {s : State ι}
    (length : formals.elements.length = arguments.elements.length)
    (exists_frames : ∀ rib ∈ env, rib.frame < s.frames.size) :
    BoundByPlace limits formals arguments env s (s.extend (.filled formals arguments) env).1
      (s.extend (.filled formals arguments) env).2 := by
  have hnew : (s.extend (.filled formals arguments) env).2.frames[s.frames.size]? =
      some (.filled formals arguments) := Array.getElem?_push_size
  have hold : ∀ n < s.frames.size,
      (s.extend (.filled formals arguments) env).2.frames[n]? = s.frames[n]? :=
    fun n hn => getElem?_push_of_lt hn
  have houter : ∀ name, (s.extend (.filled formals arguments) env).2.lookup limits env name =
      s.lookup limits env name :=
    State.lookup_congr (fun rib hrib => hold _ (exists_frames rib hrib)) limits
  refine ⟨?_, ?_, ⟨_, rfl⟩, hold, houter⟩
  · intro name hname
    have hplace := List.idxOf_lt_length_of_mem hname
    rw [length] at hplace
    refine ⟨_, List.getElem?_eq_getElem hplace, ?_⟩
    refine State.lookup_of_find hnew ?_ limits env
    exact (Frame.findIn_eq_getElem? length name).trans (List.getElem?_eq_getElem hplace)
  · intro name hname
    rw [← houter]
    refine State.lookup_of_not_find hnew ?_ limits env
    refine (Frame.findIn_eq_getElem? length name).trans (List.getElem?_eq_none ?_)
    rw [List.idxOf_eq_length hname, length]

end Machine

namespace Machine

variable {limits : Limits} {formals arguments : Value ι} {env : Env ι}

lemma extendEnv_of_eq [Marking ι] (closure : Value ι) (env : Env ι) (s : State ι)
    (length : formals.elements.length = arguments.elements.length) :
    extendEnv limits closure formals arguments env s =
      (.ok (s.extend (.filled formals arguments) env).1,
        (s.extend (.filled formals arguments) env).2) := by
  rw [Value.length_elements, Value.length_elements] at length
  rw [extendEnv, if_pos length]

lemma extendEnv_of_ne [Marking ι] (closure : Value ι) (env : Env ι) (s : State ι)
    (length : formals.elements.length ≠ arguments.elements.length) :
    extendEnv limits closure formals arguments env s =
      (.error (closure.blame limits
        (.closureArity formals.elements.length arguments.elements.length)), s) := by
  rw [Value.length_elements, Value.length_elements] at length ⊢
  rw [extendEnv, if_neg length]

lemma extendEnv_eq_ok_iff [Marking ι] (closure : Value ι) (env : Env ι) (s : State ι) :
    (∃ env' s', extendEnv limits closure formals arguments env s = (.ok env', s')) ↔
      formals.elements.length = arguments.elements.length := by
  by_cases length : formals.elements.length = arguments.elements.length
  · simp only [extendEnv_of_eq closure env s length, length, iff_true]
    exact ⟨_, _, rfl⟩
  · simp [extendEnv_of_ne closure env s length, length]

lemma blame_closure {mark : ι} {lambda body : Value ι} {shown : String}
    (hprint : (Value.closure mark lambda formals body env).print limits = .ok shown)
    (fault : String → Fault) :
    (Value.closure mark lambda formals body env).blame limits fault = fault shown := by
  simp only [Value.blame, Value.display, hprint]

lemma print_closure_of_written {mark mark' : ι} {tail body : Value ι} (h : tail.Written)
    (unlimited : limits.nesting = none) :
    (Value.closure mark (.pair mark' (.atom "lambda") tail) formals body env).print limits =
      .ok (Value.closure mark (.pair mark' (.atom "lambda") tail) formals body env).text := by
  rw [Value.print, unlimited]
  simp [Value.obstacle, h.obstacle_none]

end Machine

open Machine in
/-- A closure that a lambda expression has evaluated to is called with as many arguments as it has
parameters, or the call fails and reports both numbers. The body sees the arguments by place, in
front of the environment of the lambda expression, which the call leaves as it is. -/
theorem closure_application_law [DecidableEq ι] [Marking ι] (limits : Limits) (mode : Mode)
    (mark : ι) (tail v : Value ι) (env : Env ι) (stack : List (Cont ι)) (s s₁ : State ι)
    (made : evaluate limits mode (.pair mark (.atom "lambda") tail) env stack s =
      (⟨.give v, stack⟩, s₁)) :
    ∃ mark' lambda formals body, v = .closure mark' lambda formals body env ∧
      tail.elements = [formals, body] ∧ formals.IsParameters ∧
      (tail.Written → limits.nesting = none → v.print limits = .ok v.text) ∧
      ∀ (arguments : Value ι) (s₂ : State ι), (∀ rib ∈ env, rib.frame < s₂.frames.size) →
        ((∃ env' s₃, extendEnv limits v formals arguments env s₂ = (.ok env', s₃)) ↔
          formals.elements.length = arguments.elements.length) ∧
        (∀ fault s₃, extendEnv limits v formals arguments env s₂ = (.error fault, s₃) →
          s₃ = s₂ ∧
          (∀ shown, v.print limits = .ok shown →
            fault = .closureArity formals.elements.length arguments.elements.length shown) ∧
          ∀ mark stack, apply limits (.pair mark v arguments) stack s₂ = fail fault stack s₂) ∧
        ∀ env' s₃, extendEnv limits v formals arguments env s₂ = (.ok env', s₃) →
          BoundByPlace limits formals arguments env s₂ env' s₃ ∧
          ∀ mark stack, apply limits (.pair mark v arguments) stack s₂ =
            bounce body env' stack s₃ := by
  obtain ⟨formals, body, helements, hparameters, hclose⟩ := closure_of_evaluate made
  obtain ⟨rfl, -⟩ := Prod.mk.inj hclose
  refine ⟨_, _, formals, body, rfl, helements, hparameters, print_closure_of_written, ?_⟩
  intro arguments s₂ hframes
  refine ⟨extendEnv_eq_ok_iff _ env s₂, ?_, ?_⟩
  · intro fault s₃ failed
    have hlength : formals.elements.length ≠ arguments.elements.length := by
      intro length
      rw [extendEnv_of_eq _ env s₂ length] at failed
      cases failed
    obtain ⟨hfault, rfl⟩ := Prod.mk.inj ((extendEnv_of_ne _ env s₂ hlength).symm.trans failed)
    refine ⟨rfl, fun shown hprint => ?_, fun mark stack => ?_⟩
    · rw [← Except.error.inj hfault, blame_closure hprint]
    · simp only [apply, failed]
  · intro env' s₃ extended
    have hlength := (extendEnv_eq_ok_iff _ env s₂).mp ⟨env', s₃, extended⟩
    obtain ⟨henv, rfl⟩ := Prod.mk.inj ((extendEnv_of_eq _ env s₂ hlength).symm.trans extended)
    cases henv
    refine ⟨boundByPlace_extend hlength hframes, fun mark stack => ?_⟩
    simp only [apply, extended]

/-- Two parameters of one name: the first argument is seen, and `y` is seen outside. -/
theorem closure_application_of_repeated_name :
    let names : Value Unit := .pair () (.atom "y") .nil
    let formals : Value Unit := .pair () (.atom "x") (.pair () (.atom "x") .nil)
    let one : Value Unit := .pair () (.atom "1") .nil
    let tail : Value Unit := .pair () formals (.pair () (.atom "y") .nil)
    let v : Value Unit := .closure () (.pair () (.atom "lambda") tail) formals (.atom "y") [⟨(), 0⟩]
    let s : State Unit := ⟨#[.filled names (.pair () (.atom "7") .nil)], (), #[], #[]⟩
    Machine.evaluate .none .shared (.pair () (.atom "lambda") tail) [⟨(), 0⟩] [] s =
        (⟨.give v, []⟩, s) ∧
      (∃ env' s', Machine.apply .none (.pair () v (.pair () (.atom "0") one)) [] s =
          (⟨.bounce (.atom "y") env', []⟩, s') ∧
        s'.lookup .none env' (.atom "x") = .ok (.atom "0") ∧
        s'.lookup .none env' (.atom "y") = .ok (.atom "7")) ∧
      Machine.apply .none (.pair () v one) [] s =
        (⟨.fail (.closureArity 2 1 "#<closure (lambda (x x) y)>"), []⟩, s) := by
  intro names formals one tail v s
  have made : Machine.evaluate .none .shared (.pair () (.atom "lambda") tail) [⟨(), 0⟩] [] s =
      (⟨.give v, []⟩, s) := by decide +kernel
  obtain ⟨mark, lambda, formals', body, hv, -, -, -, hcalls⟩ :=
    closure_application_law .none .shared () tail v [⟨(), 0⟩] [] s s made
  obtain ⟨-, -, hformals, hbody, -⟩ := Value.closure.inj hv
  subst hformals hbody
  have hframes : ∀ rib ∈ ([⟨(), 0⟩] : Env Unit), rib.frame < s.frames.size := by decide
  refine ⟨made, ?_, ?_⟩
  · obtain ⟨hiff, -, hbound⟩ := hcalls (.pair () (.atom "0") one) s hframes
    obtain ⟨env', s', hextend⟩ := hiff.mpr (by decide)
    obtain ⟨hplaces, happly⟩ := hbound env' s' hextend
    refine ⟨env', s', happly () [], ?_, ?_⟩
    · obtain ⟨w, hw, hlookup⟩ := hplaces.parameter "x" (by decide)
      rw [hlookup, ← Option.some.inj hw]
    · rw [hplaces.outer "y" (by decide)]
      decide +kernel
  · obtain ⟨hiff, hfail, -⟩ := hcalls one s hframes
    cases hextend : Machine.extendEnv .none v formals one [⟨(), 0⟩] s with
    | mk outcome s₃ =>
      cases outcome with
      | ok env' => exact absurd (hiff.mp ⟨env', s₃, hextend⟩) (by decide)
      | error fault =>
        obtain ⟨-, hfault, happly⟩ := hfail fault s₃ hextend
        rw [happly () [], hfault "#<closure (lambda (x x) y)>" (by decide +kernel)]
        rfl

end Evlis
