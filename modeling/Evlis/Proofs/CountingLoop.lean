import Evlis.Proofs.ExactArithmetic
import Evlis.Proofs.IndependentBindings
import Evlis.Proofs.Rereading
import Evlis.Proofs.TailCalls

/-!
# A loop in constant depth

A program that counts down by calling itself in tail position. Every round passes through a call of
a closure, a branch and the lookup of a name that `letrec` binds, and its operands are calls of
primitives. However many rounds there are, no more than two evaluations wait at any time. Main
statement: `tail_calls_use_no_depth`.
-/

namespace Evlis

open Relation

section Calls

variable {limits : Limits} {env home : Env Unit} {s s₁ : State Unit} {name : String}
  {operands values : List (Value Unit)}

lemma Evaluates.of_integer (room : Machine.hasRoom limits ([] : List (Cont Unit)))
    (integer : Name.isInteger name = true) (env : Env Unit) (s : State Unit) :
    Evaluates limits (.atom name) env s (.ok (.atom name)) s := by
  refine .of_ends room (Outset.ends_of_done ?_)
  rw [Demand.ofExpr, if_pos integer]

lemma Evaluates.of_lookup (room : Machine.hasRoom limits ([] : List (Cont Unit)))
    (noInteger : Name.isInteger name = false) {v : Value Unit}
    (found : s.lookup limits env (.atom name) = .ok v) :
    Evaluates limits (.atom name) env s (.ok v) s := by
  refine .of_ends room (Outset.ends_of_done ?_)
  rw [Demand.ofExpr, if_neg (by simp [noInteger]), State.lookup_under, found]

lemma State.chain_reverse_unit (values : List (Value Unit)) (s : State Unit) :
    chain values.reverse .nil s = (.ofList values, s) := by
  rw [chain_unit, Value.foldl_pair_nil, List.reverse_reverse]

lemma Demand.ofExpr_call (limits : Limits) (lookup : Value Unit → Except Fault (Value Unit))
    (ordinary : Form.ofName? name = none) (operands : List (Value Unit)) :
    ofExpr limits lookup (.ofList (.atom name :: operands)) =
      .operands (.ofList (.atom name :: operands)) .call := by
  simp [ofExpr, ordinary]

namespace Outset

lemma bounces_of_closure {lambda formals body : Value Unit} (ordinary : Form.ofName? name = none)
    (inTurn : InTurn limits env (.atom name :: operands) s
      ((.closure () lambda formals body home :: values).map .ok) s₁)
    (length : formals.elements.length = values.length) :
    Bounces limits ⟨.ofList (.atom name :: operands), env, s⟩
      ⟨body, (s₁.extend (.filled formals (.ofList values)) home).1,
        (s₁.extend (.filled formals (.ofList values)) home).2⟩ := by
  have applied : Machine.apply limits (.ofList (.closure () lambda formals body home :: values)) []
      s₁ = Machine.bounce body (s₁.extend (.filled formals (.ofList values)) home).1 []
        (s₁.extend (.filled formals (.ofList values)) home).2 := by
    rw [Value.ofList_cons, Machine.apply, Machine.extendEnv_of_eq _ _ _ (by simpa using length)]
  rw [← Value.elements_ofList (.atom name :: operands)] at inTurn
  exact exists_evaluateOnce_of_call (Demand.ofExpr_call _ _ ordinary operands) inTurn
    (Value.ending_ofList _) (State.chain_reverse_unit _ s₁) applied rfl

lemma ends_of_primitive {primitive : String} {v : Value Unit}
    (ordinary : Form.ofName? name = none)
    (inTurn : InTurn limits env (.atom name :: operands) s
      ((.atom primitive :: values).map .ok) s₁)
    (applied : Primitive.apply limits primitive (.ofList values) s₁ = (.ok v, s₁)) :
    Ends limits ⟨.ofList (.atom name :: operands), env, s⟩ (.ok v) s₁ := by
  have given : Machine.apply limits (.ofList (.atom primitive :: values)) [] s₁ =
      Machine.give v [] s₁ := by
    rw [Value.ofList_cons, Machine.apply, applied]
  rw [← Value.elements_ofList (.atom name :: operands)] at inTurn
  exact exists_evaluateOnce_of_call (Demand.ofExpr_call _ _ ordinary operands) inTurn
    (Value.ending_ofList _) (State.chain_reverse_unit _ s₁) given rfl

end Outset

end Calls

lemma Name.denotes_repr (n : Nat) : Denotes (Nat.repr n) (Nat.repr n).length n :=
  denotes_decimal (n : Int)

lemma Name.length_repr_le {n k : Nat} (hk : 0 < k) (hn : n < 10 ^ k) : (Nat.repr n).length ≤ k :=
  (Nat.length_repr_le_iff hk).mpr hn

lemma Inspected.of_repr {n : Nat} (hn : n < 10 ^ 4300) (limits : Limits) (operation : String) :
    Inspected limits operation (.atom (Nat.repr n) : Value Unit) (.ok n) :=
  .integer rfl (Name.denotes_repr n) (Name.length_repr_le (by decide) hn)

lemma Primitive.calculate_repr {operation : Arithmetic} {m n r : Nat} (hm : m < 10 ^ 4300)
    (hn : n < 10 ^ 4300) (hr : r < 10 ^ 4300) (exact : operation.Exact m n r) (limits : Limits) :
    calculate limits operation (.atom (Nat.repr m) : Value Unit) (.atom (Nat.repr n)) =
      .ok (.atom (Nat.repr r)) :=
  calculate_eq_iff.mpr <| .result (.both (.of_repr hm limits _) (.of_repr hn limits _)) exact
    (Name.isCanonical_decimal (r : Int)) (Name.denotes_repr r)
    (Name.length_repr_le (by decide) hr)

namespace CountingLoop

/-- The parameters of the loop: what is still to be counted, and what has been counted. -/
def formals : Value Unit := .ofList [.atom "n", .atom "acc"]

def condition : Value Unit := .ofList [.atom "==", .atom "n", .atom "0"]

def again : Value Unit :=
  .ofList [.atom "loop", .ofList [.atom "-", .atom "n", .atom "1"],
    .ofList [.atom "+", .atom "acc", .atom "1"]]

def body : Value Unit := .ofList [.atom "if", condition, .atom "acc", again]

def lambda : Value Unit := .ofList [.atom "lambda", formals, body]

/-- The closure of the loop, whose environment is the one that binds it. -/
def closure (home : Env Unit) : Value Unit := .closure () lambda formals body home

def primitives : List String := ["==", "-", "+"]

/-- Where a round begins: the loop has been called with two numbers. -/
def round (home : Env Unit) (n acc : Nat) (s : State Unit) : Outset Unit :=
  ⟨body,
    (s.extend (.filled formals (.ofList [.atom (Nat.repr n), .atom (Nat.repr acc)])) home).1,
    (s.extend (.filled formals (.ofList [.atom (Nat.repr n), .atom (Nat.repr acc)])) home).2⟩

/-- An environment in which the loop can be called. -/
structure Ready (limits : Limits) (home : Env Unit) (s : State Unit) : Prop where
  loop : s.lookup limits home (.atom "loop") = .ok (closure home)
  primitive : ∀ name ∈ primitives, s.lookup limits home (.atom name) = .ok (.atom name)
  frames : ∀ rib ∈ home, rib.frame < s.frames.size

/-- What the names in the body of the loop stand for during a round. -/
structure Bound (limits : Limits) (home : Env Unit) (n acc : Nat) (env : Env Unit)
    (s : State Unit) : Prop where
  counter : s.lookup limits env (.atom "n") = .ok (.atom (Nat.repr n))
  total : s.lookup limits env (.atom "acc") = .ok (.atom (Nat.repr acc))
  loop : s.lookup limits env (.atom "loop") = .ok (closure home)
  primitive : ∀ name ∈ primitives, s.lookup limits env (.atom name) = .ok (.atom name)

variable {limits : Limits} {home env : Env Unit} {s : State Unit} {n acc : Nat}

/-- A call leaves everything in place for the next, and binds the two numbers. -/
lemma Ready.called (ready : Ready limits home s) (n acc : Nat) :
    Ready limits home (round home n acc s).state ∧
      Bound limits home n acc (round home n acc s).env (round home n acc s).state := by
  let arguments : Value Unit := .ofList [.atom (Nat.repr n), .atom (Nat.repr acc)]
  have bound : Machine.BoundByPlace limits formals arguments home s
      (round home n acc s).env (round home n acc s).state :=
    Machine.boundByPlace_extend rfl ready.frames
  have outer : ∀ name, .atom name ∉ formals.elements →
      (round home n acc s).state.lookup limits (round home n acc s).env (.atom name) =
        s.lookup limits home (.atom name) := bound.outer
  refine ⟨⟨?_, ?_, ?_⟩, ⟨?_, ?_, ?_, ?_⟩⟩
  · rw [bound.outside, ready.loop]
  · intro name hname
    rw [bound.outside, ready.primitive name hname]
  · intro rib hrib
    have hless := ready.frames rib hrib
    simp only [round, State.extend, State.addFrame, State.link, State.fresh, Array.size_push]
    omega
  · obtain ⟨v, hv, hlookup⟩ := bound.parameter "n" (by decide)
    cases hv
    exact hlookup
  · obtain ⟨v, hv, hlookup⟩ := bound.parameter "acc" (by decide)
    cases hv
    exact hlookup
  · rw [outer "loop" (by decide), ready.loop]
  · intro name hname
    have hparameter : .atom name ∉ formals.elements := by
      revert name
      decide
    rw [outer name hparameter, ready.primitive name hname]

def room : Limits := ⟨some 2, none⟩

/-- A primitive is called with a name and a number: the call is waited for, and within it each of
its operands. -/
lemma Bound.evaluates_call (bound : Bound room home n acc env s) {primitive name number : String}
    {v result : Value Unit} (hprimitive : primitive ∈ primitives)
    (hname : Name.isInteger name = false) (found : s.lookup room env (.atom name) = .ok v)
    (hnumber : Name.isInteger number = true)
    (applied : Primitive.apply room primitive (.ofList [v, .atom number]) s = (.ok result, s)) :
    Evaluates room (.ofList [.atom primitive, .atom name, .atom number]) env s (.ok result) s := by
  have ordinary : ∀ primitive ∈ primitives, Form.ofName? primitive = none := by decide
  have noInteger : ∀ primitive ∈ primitives, Name.isInteger primitive = false := by decide
  have own : s.lookup (room.under 1) env (.atom primitive) = .ok (.atom primitive) := by
    rw [State.lookup_under, bound.primitive primitive hprimitive]
  have inTurn : InTurn (room.under 1) env [.atom primitive, .atom name, .atom number] s
      ([.atom primitive, v, .atom number].map .ok) s :=
    .ok (.of_lookup rfl (noInteger _ hprimitive) own) <|
      .ok (.of_lookup rfl hname (by rw [State.lookup_under, found])) <|
        .ok (.of_integer rfl hnumber env s) (.nil s)
  refine .of_ends rfl (Outset.ends_of_primitive (ordinary _ hprimitive) inTurn ?_)
  rw [Primitive.apply_under, applied]

lemma Bound.evaluates_condition (bound : Bound room home n acc env s) :
    Evaluates room condition env s (.ok (.truth (n == 0))) s := by
  refine bound.evaluates_call (by decide) (by decide) bound.counter (by decide) ?_
  have hname : Nat.repr n = "0" ↔ (n : Int) = ((0 : Nat) : Int) :=
    (Name.isCanonical_decimal n).eq_iff (Name.isCanonical_decimal ((0 : Nat) : Int))
      (Name.denotes_repr n) (Name.denotes_repr 0)
  have hzero : (Nat.repr n == "0") = (n == 0) := by
    rw [Bool.eq_iff_iff, beq_iff_eq, beq_iff_eq, hname]
    omega
  rw [← hzero]
  rfl

lemma Bound.evaluates_less (bound : Bound room home (n + 1) acc env s) (hn : n + 1 < 10 ^ 4300) :
    Evaluates room (.ofList [.atom "-", .atom "n", .atom "1"]) env s
      (.ok (.atom (Nat.repr n))) s := by
  refine bound.evaluates_call (by decide) (by decide) bound.counter (by decide) ?_
  have hexact : Arithmetic.Exact ((n + 1 : Nat) : Int) ((1 : Nat) : Int) .sub (n : Int) := by
    convert Arithmetic.Exact.sub
    omega
  refine (Primitive.apply_arithmetic room .sub () () _ _ s).trans ?_
  rw [show ("1" : String) = Nat.repr 1 from rfl,
    Primitive.calculate_repr hn (by omega) (by omega) hexact]

lemma Bound.evaluates_more (bound : Bound room home n acc env s) (hacc : acc + 1 < 10 ^ 4300) :
    Evaluates room (.ofList [.atom "+", .atom "acc", .atom "1"]) env s
      (.ok (.atom (Nat.repr (acc + 1)))) s := by
  refine bound.evaluates_call (by decide) (by decide) bound.total (by decide) ?_
  have hexact : Arithmetic.Exact (acc : Int) ((1 : Nat) : Int) .add ((acc + 1 : Nat) : Int) := .add
  refine (Primitive.apply_arithmetic room .add () () _ _ s).trans ?_
  rw [show ("1" : String) = Nat.repr 1 from rfl,
    Primitive.calculate_repr (by omega) (by omega) hacc hexact]

/-- A round ends with what has been counted, or with the call of the next round. -/
lemma Bound.bounces_body (bound : Bound room home n acc env s) :
    Outset.Bounces room ⟨body, env, s⟩ ⟨if n = 0 then .atom "acc" else again, env, s⟩ := by
  have hbounces := Outset.bounces_of_branch (e := body) rfl bound.evaluates_condition
  by_cases hn : n = 0
  · subst hn
    exact hbounces
  · rw [if_neg hn]
    rwa [beq_false_of_ne hn] at hbounces

lemma Bound.bounces_again (bound : Bound room home (n + 1) acc env s)
    (h : n + 1 + acc < 10 ^ 4300) :
    Outset.Bounces room ⟨again, env, s⟩ (round home n (acc + 1) s) := by
  have inTurn : InTurn room env [.atom "loop", .ofList [.atom "-", .atom "n", .atom "1"],
      .ofList [.atom "+", .atom "acc", .atom "1"]] s
      ([closure home, .atom (Nat.repr n), .atom (Nat.repr (acc + 1))].map .ok) s :=
    .ok (.of_lookup rfl (by decide) bound.loop) <|
      .ok (bound.evaluates_less (by omega)) <|
        .ok (bound.evaluates_more (by omega)) (.nil s)
  exact Outset.bounces_of_closure rfl inTurn rfl

/-- However many rounds there are, each of them bounces to the next, and the last ends with the
sum. -/
theorem Ready.exists_end (ready : Ready room home s) (h : n + acc < 10 ^ 4300) :
    ∃ last s', ReflTransGen (Outset.Bounces room) (round home n acc s) last ∧
      last.Ends room (.ok (.atom (Nat.repr (n + acc)))) s' := by
  induction n generalizing acc s with
  | zero =>
    obtain ⟨-, bound⟩ := ready.called 0 acc
    have hends : Outset.Ends room
        ⟨.atom "acc", (round home 0 acc s).env, (round home 0 acc s).state⟩
        (.ok (.atom (Nat.repr acc))) (round home 0 acc s).state :=
      Outset.ends_of_done (congrArg Demand.done bound.total)
    rw [Nat.zero_add]
    exact ⟨_, _, .single bound.bounces_body, hends⟩
  | succ n ih =>
    obtain ⟨ready', bound⟩ := ready.called (n + 1) acc
    have hnext : n + (acc + 1) < 10 ^ 4300 := by omega
    obtain ⟨last, s', hbounces, hends⟩ := ih ready' hnext
    rw [Nat.add_right_comm, Nat.add_assoc]
    exact ⟨last, s', .head bound.bounces_body (.head (bound.bounces_again h) hbounces), hends⟩

def program (n : Nat) : SExpr :=
  .ofList [.atom "letrec",
    .ofList [.ofList [.atom "loop", .ofList [.atom "lambda", .ofList [.atom "n", .atom "acc"],
      .ofList [.atom "if", .ofList [.atom "==", .atom "n", .atom "0"], .atom "acc",
        .ofList [.atom "loop", .ofList [.atom "-", .atom "n", .atom "1"],
          .ofList [.atom "+", .atom "acc", .atom "1"]]]]]],
    .ofList [.atom "loop", .atom (Nat.repr n), .atom "0"]]

def code (n : Nat) : String :=
  "(letrec ((loop (lambda (n acc) (if (== n 0) acc (loop (- n 1) (+ acc 1)))))) (loop " ++
    Nat.repr n ++ " 0))"

def start (n : Nat) : Value Unit := .ofList [.atom "loop", .atom (Nat.repr n), .atom "0"]

lemma ofSExpr_program (n : Nat) :
    Value.ofSExpr (program n) =
      .ofList [.atom "letrec", .ofList [.ofList [.atom "loop", lambda]], start n] := rfl

lemma text_lambda :
    lambda.text = "(lambda (n acc) (if (== n 0) acc (loop (- n 1) (+ acc 1))))" := by decide

lemma text_start (n : Nat) : (start n).text = "(loop " ++ Nat.repr n ++ " 0)" := by
  simp [start, Value.nil, Value.text, Value.write, Value.writeRest, String.append_assoc]

lemma text_program (n : Nat) : (Value.ofSExpr (program n)).text = code n := by
  have hnil : (Value.nil : Value Unit).textRest = ")" := rfl
  have hatom (name : String) : (Value.atom name : Value Unit).text = name := by
    rw [Value.text, Value.write, String.empty_append]
  calc (Value.ofSExpr (program n)).text
      = "(letrec ((loop " ++ lambda.text ++ ")) (loop " ++ Nat.repr n ++ " 0))" := by
        rw [← String.toList_inj]
        simp [ofSExpr_program, hnil, hatom, text_start]
    _ = code n := by
        rw [text_lambda]
        rfl

lemma readable_program (n : Nat) : (program n).Readable := by
  have hlist (elements : List SExpr) (h : ∀ e ∈ elements, e.Readable) :
      (SExpr.ofList elements).Readable :=
    SExpr.readable_ofReversed elements.reverse (by simpa using h) (by decide) rfl
  have hstart : (SExpr.ofList [.atom "loop", .atom (Nat.repr n), .atom "0"]).Readable := by
    refine hlist _ ?_
    simp only [List.forall_mem_cons]
    exact ⟨by decide, isName_repr n, by decide, nofun⟩
  refine hlist _ ?_
  simp only [List.forall_mem_cons]
  exact ⟨by decide, by decide, hstart, nofun⟩

lemma read_code (n : Nat) : read none (code n) = .ok (program n) := by
  rw [← text_program]
  exact read_text none (program n) (readable_program n) nofun

/-- The call of the loop with a number bounces to the first round. -/
lemma Ready.bounces_start (ready : Ready room home s) (n : Nat) :
    Outset.Bounces room ⟨start n, home, s⟩ (round home n 0 s) := by
  have integer : Name.isInteger (Nat.repr n) = true := (Name.denotes_iff.mp (Name.denotes_repr n)).1
  have inTurn : InTurn room home [.atom "loop", .atom (Nat.repr n), .atom "0"] s
      ([closure home, .atom (Nat.repr n), .atom "0"].map .ok) s :=
    .ok (.of_lookup rfl (by decide) ready.loop) <|
      .ok (.of_integer rfl integer home s) <|
        .ok (.of_integer rfl (by decide) home s) (.nil s)
  exact Outset.bounces_of_closure rfl inTurn rfl

/-- The `letrec` of the program bounces to the first call, with everything in place. -/
lemma exists_ready {g : Nat} (global : s.frames[g]? = some (.filled globalList globalList))
    (n : Nat) :
    ∃ home s', Outset.Bounces room ⟨.ofSExpr (program n), [⟨(), g⟩], s⟩ ⟨start n, home, s'⟩ ∧
      Ready room home s' := by
  let bindings : Value Unit := .ofList [.ofList [.atom "loop", lambda]]
  let home : Env Unit := [⟨(), s.frames.size⟩, ⟨(), g⟩]
  let s₀ : State Unit := (s.suspend bindings (start n) [⟨(), g⟩]).2
  have hvalue : Evaluates room lambda home s₀ (.ok (closure home)) s₀ :=
    .of_ends rfl (Outset.ends_of_closure (e := lambda) rfl)
  have hformed : (Value.ofList [.atom "loop", lambda]).IsBinding "loop" lambda :=
    ⟨rfl, rfl, by decide⟩
  have hbound : BoundInTurn room home bindings.elements s₀ [⟨"loop", lambda, closure home⟩] s₀ :=
    .cons hformed hvalue (.nil s₀)
  obtain ⟨s', hbounces, hinstalls⟩ := Outset.bounces_of_letrec
    (e := .ofSExpr (program n)) rfl rfl hbound
  have hsees := hinstalls.seesFromNow room ⟨.give .nil, []⟩ _ .refl
  have hglobal : s'.frames[g]? = some (.filled globalList globalList) := hbounces.filled global
  refine ⟨home, s', hbounces, ⟨?_, ?_, ?_⟩⟩
  · exact hsees.bound [] _ [] rfl nofun
  · intro name hname
    have hother : ∀ name ∈ primitives, "loop" ≠ name := by decide
    have hfind : ∀ name ∈ primitives,
        (Frame.filled globalList globalList).find (.atom name) = some (.atom name) := by decide
    rw [hsees.outer name (by simpa using hother name hname)]
    exact State.lookup_of_find hglobal (hfind name hname) room []
  · obtain ⟨names, values, -, -, hframes⟩ := hinstalls.filled
    have hsize : s'.frames.size = s.frames.size + 1 := by
      rw [hframes, Array.size_setIfInBounds]
      exact Array.size_push ..
    have hless := lt_size_of_getElem? hglobal
    simp only [home, List.forall_mem_cons]
    exact ⟨by omega, hless, nofun⟩

/-- The program counts up to its number, with room for two evaluations that wait. -/
theorem exists_eval_code (hn : n < 10 ^ 4300) (s : State Unit) :
    ∃ fuel s', Interpreter.eval fuel room ⟨.inOrder⟩ (code n) s =
      some (.ok (.atom (Nat.repr n)), ⟨.inOrder⟩, s') := by
  have hglobal : (Machine.ofProgram (program n) s).2.frames[s.frames.size]? =
      some (.filled globalList globalList) := by
    rw [Machine.ofProgram_eq]
    exact Array.getElem?_push_size
  obtain ⟨home, s₁, hletrec, ready⟩ := exists_ready hglobal n
  obtain ⟨last, s', hrounds, hends⟩ := ready.exists_end (show n + 0 < 10 ^ 4300 from hn)
  obtain ⟨fuel, hrun⟩ := Outset.exists_run_of_bounces
    (.head hletrec (.head (ready.bounces_start n) hrounds)) hends
  refine ⟨fuel, s', ?_⟩
  rw [Interpreter.eval_inOrder (read_code n), show (Machine.ofProgram (program n) s).1 = _ from
    congrArg Prod.fst (Machine.ofProgram_eq (program n) s), hrun]
  rfl

end CountingLoop

/-! ## Tail calls use no depth -/

/-- An expression comes to an outcome within some limits exactly if each expression in the sequence
of those in tail position comes to the next within the same limits, and the last to the outcome,
however long the sequence is; if it has no end, then no limit ends it. The depth of the limits is
the number of evaluations that may wait for the one under way. In particular there is one depth in
which the loop counts up to every number that has at most 4300 digits. -/
theorem tail_calls_use_no_depth {ι : Type} [DecidableEq ι] [Marking ι] :
    (∀ (limits : Limits) (e : Value ι) (env : Env ι) (s s' : State ι)
        (outcome : Except Fault (Value ι)),
      (∃ fuel, Evaluation.evaluate fuel limits .inOrder e env s = some (outcome, .inOrder, s')) ↔
        ∃ last, ReflTransGen (Outset.Bounces limits) ⟨e, env, s⟩ last ∧
          last.Ends limits outcome s') ∧
    (∀ (limits : Limits) (a : Nat → Outset ι), (∀ n, (a n).Bounces limits (a (n + 1))) →
      ∀ fuel, Evaluation.evaluate fuel limits .inOrder (a 0).expr (a 0).env (a 0).state = none) ∧
    (∀ (limits : Limits) (depth : Nat), limits.depth = some depth →
      ∀ (e : Value ι) (env : Env ι) (s : State ι) c,
        Machine.Reaches limits (Thread.start e env, s) c → c.1.stack.length ≤ depth) ∧
    ∃ depth, ∀ n < 10 ^ 4300, ∀ s, ∃ fuel s',
      Interpreter.eval fuel ⟨some depth, none⟩ ⟨.inOrder⟩ (CountingLoop.code n) s =
        some (.ok (.atom (Nat.repr n)), ⟨.inOrder⟩, s') := by
  refine ⟨?_, ?_, ?_, ?_⟩
  · intro limits e env s s' outcome
    exact Evaluation.evaluate_iff_bounces
  · intro limits a bounces fuel
    exact Evaluation.evaluate_of_endless bounces fuel
  · intro limits depth hdepth e env s c hreach
    have hstart : Machine.Fits limits (Thread.start e env).stack := .nil limits
    exact (Machine.fits_reaches hstart hreach).length_le depth hdepth
  · exact ⟨2, fun n hn s => CountingLoop.exists_eval_code hn s⟩

namespace EndlessLoop

def home : Env Unit := [⟨(), 0⟩]

def call : Value Unit := .ofList [.atom "f"]

/-- A closure without parameters that calls itself. -/
def closure : Value Unit := .closure () (.ofList [.atom "lambda", .nil, call]) .nil call home

/-- The calls, each in the environment that the one before makes. -/
def outset : Nat → Outset Unit
  | 0 => ⟨call, home, ⟨#[.filled (.ofList [.atom "f"]) (.ofList [closure])], (), #[], #[]⟩⟩
  | n + 1 =>
    ⟨call, ((outset n).state.extend (.filled .nil (.ofList [])) home).1,
      ((outset n).state.extend (.filled .nil (.ofList [])) home).2⟩

def limits : Limits := ⟨some 1, none⟩

lemma lookup_outset (n : Nat) :
    0 < (outset n).state.frames.size ∧
      (outset n).state.lookup limits home (.atom "f") = .ok closure ∧
      (outset n).state.lookup limits (outset n).env (.atom "f") = .ok closure := by
  induction n with
  | zero => decide
  | succ n ih =>
    obtain ⟨hsize, hhome, -⟩ := ih
    have bound : Machine.BoundByPlace limits .nil (.ofList []) home (outset n).state
        (outset (n + 1)).env (outset (n + 1)).state :=
      Machine.boundByPlace_extend rfl (by simpa [home] using hsize)
    refine ⟨?_, ?_, ?_⟩
    · have hgrown : (outset (n + 1)).state.frames.size = (outset n).state.frames.size + 1 :=
        Array.size_push ..
      omega
    · rw [bound.outside, hhome]
    · rw [bound.outer "f" (by decide), hhome]

lemma bounces_outset (n : Nat) : (outset n).Bounces limits (outset (n + 1)) := by
  have inTurn : InTurn limits (outset n).env [.atom "f"] (outset n).state ([closure].map .ok)
      (outset n).state :=
    .ok (.of_lookup rfl (by decide) (lookup_outset n).2.2) (.nil _)
  have hcall : outset n = ⟨call, (outset n).env, (outset n).state⟩ := by cases n <;> rfl
  rw [hcall]
  exact Outset.bounces_of_closure rfl inTurn rfl

end EndlessLoop

/-- A loop without an end is not stopped where one evaluation may wait, and no more than one waits
after its first step. A loop of more rounds than could ever be made comes to its end. -/
theorem endless_and_long_loops_use_no_depth :
    (∀ fuel, Evaluation.evaluate fuel EndlessLoop.limits .inOrder EndlessLoop.call EndlessLoop.home
      (EndlessLoop.outset 0).state = none) ∧
    (Machine.step EndlessLoop.limits .inOrder (.start EndlessLoop.call EndlessLoop.home)
      (EndlessLoop.outset 0).state).1.stack.length ≤ 1 ∧
    ∃ depth, ∀ s, ∃ fuel s',
      Interpreter.eval fuel ⟨some depth, none⟩ ⟨.inOrder⟩ (CountingLoop.code (10 ^ 4299)) s =
        some (.ok (.atom (Nat.repr (10 ^ 4299))), ⟨.inOrder⟩, s') := by
  obtain ⟨-, endless, deep, depth, counts⟩ := tail_calls_use_no_depth (ι := Unit)
  refine ⟨?_, ?_, depth, ?_⟩
  · exact endless EndlessLoop.limits EndlessLoop.outset EndlessLoop.bounces_outset
  · exact deep EndlessLoop.limits 1 rfl EndlessLoop.call EndlessLoop.home _ _ (.single rfl)
  · exact counts (10 ^ 4299) (pow_lt_pow_right₀ (by decide) (by decide))

end Evlis
