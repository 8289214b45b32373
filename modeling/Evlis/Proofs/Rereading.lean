import Evlis.Proofs.Grammar
import Evlis.Proofs.Provenance

/-!
# Reading the output of a program

The value of a program is shown as text. If it is a tree of atoms and of lists, the text reads back
as this very tree, since all its names are names that a text can spell; quoted, it is a program that
shows the same text. If there is a closure in the value, or a chain that does not end in `nil`, the
text holds a character that no program has.
-/

namespace Evlis

open SExpr

lemma Spells.isLegal {nesting : Nat} {text : List Char} {trees : List SExpr}
    (h : Spells nesting text trees) : ∀ c ∈ text, Token.IsLegal c := by
  induction h with
  | none => simp
  | atom blank isName _ _ ih =>
    intro c hc
    simp only [List.mem_append] at hc
    rcases hc with hc | hc | hc
    · exact .inl (blank c hc)
    · exact .inr (.inr (.inr (isName.2 c hc)))
    · exact ih c hc
  | list blank _ blankClosing _ ihWithin ihOthers =>
    intro c hc
    simp only [List.mem_append, List.mem_cons] at hc
    rcases hc with hc | rfl | hc | hc | rfl | hc
    · exact .inl (blank c hc)
    · exact .inr (.inl rfl)
    · exact ihWithin c hc
    · exact .inl (blankClosing c hc)
    · exact .inr (.inr (.inl rfl))
    · exact ihOthers c hc

lemma isLegal_of_read {limit : Option Nat} {text : String} {tree : SExpr}
    (h : read limit text = .ok tree) : ∀ c ∈ text.toList, Token.IsLegal c := by
  obtain ⟨nesting, ⟨form, space, hspells, hblank, htext⟩, -⟩ := isProgram_of_read h
  intro c hc
  rw [htext] at hc
  rcases List.mem_append.mp hc with hc | hc
  · exact hspells.isLegal c hc
  · exact .inl (hblank c hc)

/-- The text holds a character that no program has. -/
def IsMarked (text : String) : Prop := ∃ c ∈ text.toList, ¬ Token.IsLegal c

lemma IsMarked.append_left {text : String} (h : IsMarked text) (rest : String) :
    IsMarked (text ++ rest) := by
  obtain ⟨c, hc, hmark⟩ := h
  exact ⟨c, by simp [hc], hmark⟩

lemma IsMarked.append_right {text : String} (h : IsMarked text) (front : String) :
    IsMarked (front ++ text) := by
  obtain ⟨c, hc, hmark⟩ := h
  exact ⟨c, by simp [hc], hmark⟩

namespace Value

variable {K : Purview} {v : Value Unit}

/-- Closures and dotted tails are marked in the text of a value, however deep inside they are. -/
lemma MadeOf.isMarked (h : v.MadeOf K) :
    (¬ v.Written → IsMarked v.text) ∧
      (¬ (v.Written ∧ v.ending = .nil) → IsMarked v.textRest) := by
  -- an atom is marked at the end of a chain only, where the dot stands in front of it
  induction v with
  | atom name =>
    refine ⟨fun hplain => absurd trivial hplain, fun hplain => ?_⟩
    have hname : name ≠ "nil" := by
      rintro rfl
      exact hplain ⟨trivial, rfl⟩
    refine ⟨'.', ?_, by decide⟩
    simp [textRest, writeRest, hname]
  | pair mark car cdr ihCar ihCdr =>
    obtain ⟨hcar, hcdr⟩ := h
    have hparts (front : String) (hplain : ¬ (car.Written ∧ cdr.Written ∧ cdr.ending = .nil)) :
        IsMarked (front ++ car.text ++ cdr.textRest) := by
      by_cases hwritten : car.Written
      · refine ((ihCdr hcdr).2 ?_).append_right _
        exact fun hrest => hplain ⟨hwritten, hrest⟩
      · exact (((ihCar hcar).1 hwritten).append_right front).append_left _
    refine ⟨?_, ?_⟩
    · intro hplain
      rw [text_pair]
      exact hparts "(" hplain
    · intro hplain
      rw [textRest_pair]
      exact hparts " " fun hwritten => hplain ⟨hwritten, hwritten.2.2⟩
  | closure mark lambda formals body env =>
    refine ⟨fun _ => ⟨'#', ?_, by decide⟩, fun _ => ⟨'#', ?_, by decide⟩⟩
    · rw [text, write, write_eq]
      simp
    · rw [textRest, writeRest, write_eq]
      simp
  | «foreign» n => exact h.elim

/-- Plain data with names that a text can spell is a tree that a text stands for. -/
lemma Written.exists_readable (h : v.Written) (hnames : ∀ name, v.HasAtom name → IsName name) :
    ∃ tree : SExpr, ofSExpr tree = v ∧ tree.Readable := by
  induction v with
  | atom name => exact ⟨.atom name, rfl, hnames name rfl⟩
  | pair mark car cdr ihCar ihCdr =>
    obtain ⟨hcar, hcdr, hending⟩ := h
    obtain ⟨first, rfl, hfirst⟩ := ihCar hcar fun name hname => hnames name (.inl hname)
    obtain ⟨rest, rfl, hrest⟩ := ihCdr hcdr fun name hname => hnames name (.inr hname)
    refine ⟨.pair first rest, ofSExpr_pair first rest, hfirst, hrest, ?_⟩
    rw [ending_ofSExpr] at hending
    cases hend : rest.ending with
    | atom name =>
      rw [hend] at hending
      cases hending
      rfl
    | pair car cdr =>
      rw [hend, ofSExpr_pair] at hending
      cases hending
  | _ => exact h.elim

end Value

lemma isName_repr (n : Nat) : IsName (Nat.repr n) := by
  refine ⟨Nat.repr_ne_empty, ?_⟩
  intro c hc
  rw [Nat.toList_repr] at hc
  have hdigit : c.isDigit = true := Nat.isDigit_of_mem_toDigits (by decide) (by decide) hc
  simp [Token.isNameChar, Char.isAlphanum, hdigit]

lemma isName_decimal (n : Int) : IsName (Text.decimal n) := by
  cases n with
  | ofNat n => exact isName_repr n
  | negSucc n =>
    refine ⟨by simp [Text.decimal], ?_⟩
    intro c hc
    rw [Text.decimal, String.toList_append, List.mem_append] at hc
    rcases hc with hc | hc
    · obtain rfl : c = '-' := by simpa using hc
      decide
    · exact (isName_repr (n + 1)).2 c hc

lemma isName_of_hasAtom {tree : SExpr} (h : tree.Readable) {name : String}
    (hname : (Value.ofSExpr tree).HasAtom name) : IsName name := by
  induction tree with
  | atom other =>
    obtain rfl : other = name := hname
    exact h
  | pair car cdr ihCar ihCdr =>
    rw [Value.ofSExpr_pair] at hname
    rcases hname with hname | hname
    · exact ihCar h.1 hname
    · exact ihCdr h.2.1 hname

/-- Whatever names a program shows, texts can spell them. -/
lemma SExpr.AccountsFor.isName {program : SExpr} (hreadable : program.Readable) {name : String}
    (h : program.AccountsFor name) : IsName name := by
  rcases h with hname | rfl | rfl | ⟨n, rfl⟩
  · exact isName_of_hasAtom hreadable hname
  · decide
  · decide
  · exact isName_decimal n

namespace Value

/-- How deep lists are nested in what is shown of a value. -/
def nesting : Value Unit → Nat
  | .pair _ car cdr => max (car.nesting + 1) cdr.nesting
  | .closure _ lambda _ _ _ => lambda.nesting
  | _ => 0

lemma nesting_ofSExpr (tree : SExpr) : (ofSExpr tree).nesting = tree.depth := by
  induction tree with
  | atom name => rfl
  | pair car cdr ihCar ihCdr => rw [ofSExpr_pair, nesting, depth, ihCar, ihCdr]

lemma MadeOf.obstacle {K : Purview} {v : Value Unit} (h : v.MadeOf K) {room : Option Nat}
    (hroom : Shallow room v.nesting) : v.obstacle room = none := by
  induction v generalizing room with
  | atom name => rfl
  | pair mark car cdr ihCar ihCdr =>
    obtain ⟨hpositive, hcar⟩ := (hroom.mono (Nat.le_max_left _ _)).pred
    rw [Value.obstacle, if_neg hpositive, ihCar h.1 hcar]
    exact ihCdr h.2 (hroom.mono (Nat.le_max_right _ _))
  | closure mark lambda formals body env ihLambda _ _ => exact ihLambda h.1 hroom
  | «foreign» n => exact h.elim

end Value

/-- The tree of a quoted datum. -/
def quotation (tree : SExpr) : SExpr := .pair (.atom "quote") (.pair tree .nil)

lemma text_quotation (tree : SExpr) :
    (Value.ofSExpr (quotation tree)).text = "(quote " ++ (Value.ofSExpr tree).text ++ ")" := by
  rw [quotation, Value.ofSExpr_pair, Value.ofSExpr_pair, Value.text_pair, Value.textRest_pair]
  simp only [← String.append_assoc]
  rfl

lemma readable_quotation {tree : SExpr} (h : tree.Readable) : (quotation tree).Readable :=
  ⟨by decide, ⟨h, by decide, rfl⟩, rfl⟩

lemma depth_quotation (tree : SExpr) : (quotation tree).depth = tree.depth + 1 := by
  simp [quotation, depth, SExpr.nil]

lemma Machine.step_quotation (limits : Limits) (tree : SExpr) (env : Env Unit) (s : State Unit) :
    step limits .inOrder (.start (.ofSExpr (quotation tree)) env) s =
      (⟨.give (.ofSExpr tree), []⟩, s) := by
  rw [quotation, Value.ofSExpr_pair, Value.ofSExpr_pair]
  rfl

lemma Interpreter.run_quotation {limits : Limits} {tree : SExpr} (hreadable : tree.Readable)
    (hdepth : Shallow limits.nesting (tree.depth + 1)) (fuel : Nat) (s : State Unit) :
    ∃ s', Interpreter.run (fuel + 2) limits ⟨.inOrder⟩
        ("(quote " ++ (Value.ofSExpr tree).text ++ ")") s =
      some (.ok (Value.ofSExpr tree).text, ⟨.inOrder⟩, s') := by
  have accepted : read limits.nesting ("(quote " ++ (Value.ofSExpr tree).text ++ ")") =
      .ok (quotation tree) := by
    rw [← text_quotation]
    exact read_text _ _ (readable_quotation hreadable) (by rwa [depth_quotation])
  refine ⟨(Machine.ofProgram (quotation tree) s).2, ?_⟩
  rw [run, eval_inOrder accepted, Machine.ofProgram_eq]
  simp only [Machine.runUntil, Machine.step_quotation]
  simp only [Thread.start, Thread.outcome?, Option.map_some]
  rw [print_eq_text _ _ (hdepth.mono (Nat.le_succ _))]

lemma Interpreter.accepted_of_eval {fuel : Nat} {limits : Limits} {code : String}
    {s s' : State Unit} {v : Value Unit} {interpreter interpreter' : Interpreter}
    (h : interpreter.eval fuel limits code s = some (.ok v, interpreter', s')) :
    ∃ program, read limits.nesting code = .ok program := by
  rw [Interpreter.eval, load] at h
  cases hread : read limits.nesting code with
  | ok program => exact ⟨program, rfl⟩
  | error fault =>
    rw [hread] at h
    cases h

/-- What a program shows can be read again just if its value is plain data, which is then what is
read; quoted, it is a program that shows the same. -/
theorem output_rereads_iff_plain {fuel : Nat} {limits : Limits} {code : String}
    {s s' : State Unit} {v : Value Unit} {interpreter : Interpreter}
    (heval : Interpreter.eval fuel limits ⟨.inOrder⟩ code s = some (.ok v, interpreter, s'))
    (hnesting : Shallow limits.nesting (v.nesting + 1)) :
    ∃ text, Interpreter.run fuel limits ⟨.inOrder⟩ code s = some (.ok text, interpreter, s') ∧
      ((∃ tree, read limits.nesting text = .ok tree) ↔ v.Written) ∧
      ∀ tree, read limits.nesting text = .ok tree →
        Value.ofSExpr tree = v ∧
        ∀ fuel' s₁, 2 ≤ fuel' → ∃ interpreter' s₂,
          Interpreter.run fuel' limits ⟨.inOrder⟩ ("(quote " ++ text ++ ")") s₁ =
            some (.ok text, interpreter', s₂) := by
  obtain ⟨program, accepted⟩ := Interpreter.accepted_of_eval heval
  have hreadable := (readable_of_read accepted).1
  have hv : v.MadeOf (Machine.purviewOf limits program s) :=
    Interpreter.abides_of_eval accepted heval
  have hshown : v.print limits = .ok v.text := by
    rw [Value.print, hv.obstacle (hnesting.mono (Nat.le_succ _))]
  have hplain (hread : ∃ tree, read limits.nesting v.text = .ok tree) : v.Written := by
    obtain ⟨tree, hread⟩ := hread
    by_contra hmarked
    obtain ⟨c, hc, hillegal⟩ := hv.isMarked.1 hmarked
    exact hillegal (isLegal_of_read hread c hc)
  have hrereads (hwritten : v.Written) :
      ∃ tree : SExpr, Value.ofSExpr tree = v ∧ tree.Readable ∧
        Shallow limits.nesting (tree.depth + 1) ∧ read limits.nesting v.text = .ok tree := by
    obtain ⟨tree, rfl, htree⟩ :=
      hwritten.exists_readable fun name hname => (hv.names hname).isName hreadable
    rw [Value.nesting_ofSExpr] at hnesting
    exact ⟨tree, rfl, htree, hnesting, read_text _ _ htree (hnesting.mono (Nat.le_succ _))⟩
  refine ⟨v.text, ?_, ⟨hplain, ?_⟩, ?_⟩
  · rw [Interpreter.run, heval]
    simp only [hshown]
  · intro hwritten
    obtain ⟨tree, -, -, -, hread⟩ := hrereads hwritten
    exact ⟨tree, hread⟩
  · intro tree hread
    obtain ⟨tree', rfl, htree, hdepth, hread'⟩ := hrereads (hplain ⟨tree, hread⟩)
    obtain rfl : tree' = tree := by
      rw [hread'] at hread
      exact Except.ok.inj hread
    refine ⟨rfl, ?_⟩
    intro fuel' s₁ hfuel
    obtain ⟨n, rfl⟩ := Nat.exists_eq_add_of_le' hfuel
    obtain ⟨s₂, hrun⟩ := Interpreter.run_quotation htree hdepth n s₁
    exact ⟨_, s₂, hrun⟩

/-- A list of a sum and of a list is read again. -/
theorem output_of_list_rereads :
    let code := "(list (+ 1 2) (cons (quote a) nil))"
    let tree := SExpr.ofList [.atom "3", .ofList [.atom "a"]]
    ∃ interpreter s',
      Interpreter.run 40 (.ofCalls 100) ⟨.inOrder⟩ code .empty =
        some (.ok "(3 (a))", interpreter, s') ∧
      read (some 100) "(3 (a))" = .ok tree ∧
      ∃ interpreter' s₂, Interpreter.run 2 (.ofCalls 100) ⟨.inOrder⟩ "(quote (3 (a)))" s' =
        some (.ok "(3 (a))", interpreter', s₂) := by
  intro code tree
  have hvalue : (Interpreter.eval 40 (.ofCalls 100) ⟨.inOrder⟩ code .empty).map Prod.fst =
      some (.ok (.ofSExpr tree)) := by decide +kernel
  obtain ⟨⟨_, interpreter, s'⟩, heval, rfl⟩ := Option.map_eq_some_iff.mp hvalue
  obtain ⟨text, hrun, -, hsame⟩ := output_rereads_iff_plain heval (by decide)
  obtain rfl : text = "(3 (a))" := by
    simp only [Interpreter.run, heval] at hrun
    cases hrun
    decide
  have hread : read (some 100) "(3 (a))" = .ok tree := by decide +kernel
  exact ⟨interpreter, s', hrun, hread, (hsame tree hread).2 2 s' (Nat.le_refl 2)⟩

end Evlis
