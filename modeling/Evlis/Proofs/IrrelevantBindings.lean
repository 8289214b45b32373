import Evlis.Proofs.IndependentBindings

/-!
# Bindings that do not matter

An expression can tell two environments apart only by the names that it mentions. A frame that binds
none of them may stand anywhere in the environment: the closures that the expression makes carry the
frame along, but their bodies are parts of the expression and do not mention its names either. So
the run with the frame and the run without it go in lockstep.
-/

namespace Evlis

namespace Frame

lemma findIn_eq_none {names : Value Unit} {name : String} (h : .atom name ∉ names.elements)
    (values : Value Unit) : findIn (.atom name) names values = none := by
  induction names generalizing values with
  | pair mark first names _ ih =>
    rw [Value.elements_pair, List.mem_cons, not_or] at h
    cases values with
    | pair mark' v values =>
      have hother : first.alike (.atom name) = false := by
        cases first with
        | atom other => exact beq_false_of_ne fun hsame => h.1 (congrArg Value.atom hsame.symm)
        | _ => rfl
      rw [findIn, hother, if_neg Bool.false_ne_true, ih h.2]
    | _ => rfl
  | _ => rfl

/-- The frame with the given number, which binds the given names, is passed by on the left. -/
def detour (number : Nat) (names : Value Unit) : Detour where
  names := fun name => .atom name ∈ names.elements
  left := (· = number)
  right := fun _ => False

section Runs

variable {number : Nat} {names values e : Value Unit} {inner outer : Env Unit} {s : State Unit}

/-- Every frame is paired with itself, the one that is passed by as well. -/
lemma meets_itself (filled : s.frames[number]? = some (.filled names values))
    (grounded : s.Grounds (inner ++ ⟨(), number⟩ :: outer) [e]) :
    (detour number names).Meets (Bindings.Kept s) s s := by
  refine ⟨rfl, ?_, ?_, ?_, nofun⟩
  · rintro n _ ⟨rfl, hn⟩
    obtain ⟨f, hf, hakin⟩ := Bindings.akin_itself grounded hn
    exact ⟨f, f, hf, hf, hakin⟩
  · rintro n _ n' _ ⟨rfl, -⟩ ⟨rfl, -⟩ - -
    exact Iff.rfl
  · rintro _ rfl
    exact ⟨_, filled, fun name hname => findIn_eq_none hname values, nofun⟩

/-- The expression can be evaluated with the frame and without it. -/
lemma admits_without (apart : ∀ name, .atom name ∈ names.elements → ¬ e.Mentions name)
    (grounded : s.Grounds (inner ++ ⟨(), number⟩ :: outer) [e]) :
    (detour number names).Admits (Bindings.Kept s) (inner ++ ⟨(), number⟩ :: outer)
      (inner ++ outer) e := by
  have hkept : ∀ n < s.frames.size, Bindings.Kept s n n := fun n hn => ⟨rfl, hn⟩
  refine ⟨.of_within (grounded.exprs e List.mem_cons_self) hkept, ?_⟩
  have henv := grounded.env
  clear grounded
  induction inner with
  | nil =>
    have houter : EnvWithin (· < s.frames.size) outer := fun rib hrib => henv rib (.tail _ hrib)
    exact .left apart rfl (.of_within houter hkept)
  | cons rib inner ih =>
    have hrib := henv rib List.mem_cons_self
    exact .both (hkept _ hrib) (ih fun rib hrib => henv rib (.tail _ hrib))

end Runs

end Frame

/-- A filled frame that binds no name of an expression may stand anywhere in the environment: with
it and without it, evaluating the expression ends or does not end, with a value of the same printed
form or with the same fault, and the same lines are printed even if there is no end. -/
theorem evaluation_passes_by_unmentioned {e : Value Unit} {inner outer : Env Unit} {s : State Unit}
    {number : Nat} {names values : Value Unit}
    (filled : s.frames[number]? = some (.filled names values))
    (apart : ∀ name, .atom name ∈ names.elements → ¬ e.Mentions name)
    (grounded : s.Grounds (inner ++ ⟨(), number⟩ :: outer) [e]) :
    (∀ shown lines, Evaluation.Ends e (inner ++ ⟨(), number⟩ :: outer) s shown lines ↔
      Evaluation.Ends e (inner ++ outer) s shown lines) ∧
    ∀ lines, Machine.Prints (Thread.start e (inner ++ ⟨(), number⟩ :: outer), s) lines ↔
      Machine.Prints (Thread.start e (inner ++ outer), s) lines := by
  have habreast : Machine.Abreast (Frame.detour number names) (Bindings.Kept s) [] []
      (Thread.start e (inner ++ ⟨(), number⟩ :: outer), s) (Thread.start e (inner ++ outer), s) :=
    ⟨.enter (Frame.admits_without apart grounded), .bottom, Frame.meets_itself filled grounded⟩
  have hsame := Machine.isParallel_abreast.showSame ⟨_, habreast⟩
  refine ⟨fun shown lines => ?_, hsame.prints⟩
  rw [Evaluation.ends_iff, Evaluation.ends_iff]
  exact hsame.ends shown lines

/-- A closure that carries the frame along and is bound in the frame of a `letrec` that it reaches,
called between two other frames. -/
theorem closure_passes_by_unmentioned :
    let e : Value Unit := .ofSExpr (.ofList [.atom "letrec",
      .ofList [.ofList [.atom "f", .ofList [.atom "lambda", .ofList [.atom "y"],
        .ofList [.atom "if", .atom "y", .ofList [.atom "f", .ofList [.atom "cdr", .atom "y"]],
          .ofList [.atom "print", .atom "k"]]]]],
      .ofList [.atom "f", .ofList [.atom "list", .atom "1", .atom "2"]]])
    let known : Value Unit := .ofSExpr (.ofList [.atom "cdr", .atom "print"])
    let s : State Unit := ⟨#[.filled known known,
      .filled (.ofSExpr (.ofList [.atom "z"])) (.ofSExpr (.ofList [.atom "9"])),
      .filled (.ofSExpr (.ofList [.atom "k"])) (.ofSExpr (.ofList [.atom "5"]))], (), #[], #[]⟩
    s.Grounds [⟨(), 2⟩, ⟨(), 1⟩, ⟨(), 0⟩] [e] ∧ ¬ e.Mentions "z" ∧
      Evaluation.Ends e [⟨(), 2⟩, ⟨(), 1⟩, ⟨(), 0⟩] s (.ok (.ok "5")) #["5"] := by
  intro e known s
  have grounded : s.Grounds ([⟨(), 2⟩] ++ ⟨(), 1⟩ :: [⟨(), 0⟩]) [e] := by
    refine ⟨?_, by simp [EnvWithin, s], ?_⟩
    · intro n names values hframe
      have hn : n < 3 := lt_size_of_getElem? hframe
      obtain rfl | rfl | rfl : n = 0 ∨ n = 1 ∨ n = 2 := by omega
      all_goals
        cases hframe
        exact .ofSExpr _
    · rintro _ (_ | ⟨_, ⟨⟩⟩)
      exact .ofSExpr _
  have habsent : ¬ e.Mentions "z" := by
    simp [e, SExpr.ofList, SExpr.ofReversed, SExpr.nil, Value.Mentions, Value.nil]
  have apart : ∀ name, .atom name ∈ (Value.ofSExpr (.ofList [.atom "z"])).elements →
      ¬ e.Mentions name := by
    intro name hname
    obtain rfl : name = "z" := by
      simpa [SExpr.ofList, SExpr.ofReversed, SExpr.nil, Value.elements, Value.elementsOnto]
        using hname
    exact habsent
  have hwithout : (Evaluation.evaluate 60 .none .inOrder e [⟨(), 2⟩, ⟨(), 0⟩] s).map
      (fun result => (result.1.map (Value.print .none), result.2.1, result.2.2.printed)) =
        some (.ok (.ok "5"), .inOrder, #["5"]) := by decide +kernel
  obtain ⟨⟨outcome, strategy, s'⟩, hevaluate, hresult⟩ := Option.map_eq_some_iff.mp hwithout
  obtain ⟨hshown, hrest⟩ := Prod.mk.inj hresult
  obtain ⟨hstrategy, hlines⟩ := Prod.mk.inj hrest
  cases hstrategy
  have hends : Evaluation.Ends e ([⟨(), 2⟩] ++ [⟨(), 0⟩]) s (.ok (.ok "5")) #["5"] :=
    ⟨60, outcome, s', hevaluate, hshown, hlines⟩
  have filled : s.frames[1]? = some (.filled (.ofSExpr (.ofList [.atom "z"]))
      (.ofSExpr (.ofList [.atom "9"]))) := rfl
  have hagrees := (evaluation_passes_by_unmentioned filled apart grounded).1
  exact ⟨grounded, habsent, (hagrees _ _).mpr hends⟩

end Evlis
