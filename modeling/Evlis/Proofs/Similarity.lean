import Evlis.Proofs.Reference
import Mathlib.Data.List.Forall2

/-!
# Values that differ in their environments

Two values are similar when they differ in nothing but the environments of the closures in them,
and these are related. A program cannot look into the environment of a closure: everything that
values are printed, taken apart and computed with gives similar results for similar values.
-/

namespace Evlis

/-- The same fault, or related results. -/
inductive Like {α β : Type} (r : α → β → Prop) : Except Fault α → Except Fault β → Prop where
  | ok {a : α} {b : β} (h : r a b) : Like r (.ok a) (.ok b)
  | error (fault : Fault) : Like r (.error fault) (.error fault)

variable {ι : Type}

/-- Equal but for marks and for the environments of closures, which are related by `R`. -/
inductive Value.Similar (R : Env ι → Env ι → Prop) : Value ι → Value ι → Prop where
  | atom (name : String) : Similar R (.atom name) (.atom name)
  | pair {mark mark' : ι} {car cdr car' cdr' : Value ι} (hcar : Similar R car car')
      (hcdr : Similar R cdr cdr') : Similar R (.pair mark car cdr) (.pair mark' car' cdr')
  | closure {mark mark' : ι} {lambda formals body lambda' formals' body' : Value ι}
      {env env' : Env ι} (hlambda : Similar R lambda lambda') (hformals : Similar R formals formals')
      (hbody : Similar R body body') (henv : R env env') :
      Similar R (.closure mark lambda formals body env) (.closure mark' lambda' formals' body' env')
  | foreign (n : Int) : Similar R (.foreign n) (.foreign n)

namespace Value.Similar

variable {R R' : Env ι → Env ι → Prop} {v w v' w' : Value ι}

lemma mono (hR : ∀ env env', R env env' → R' env env') (h : Similar R v w) : Similar R' v w := by
  induction h with
  | atom name => exact .atom name
  | pair _ _ ihCar ihCdr => exact .pair ihCar ihCdr
  | closure _ _ _ henv ihLambda ihFormals ihBody =>
    exact .closure ihLambda ihFormals ihBody (hR _ _ henv)
  | «foreign» n => exact .foreign n

lemma nil : Similar R Value.nil Value.nil := .atom "nil"

lemma truth (flag : Bool) : Similar R (Value.truth flag) (Value.truth flag) := by
  cases flag
  · exact .atom "nil"
  · exact .atom "t"

lemma isNil_eq (h : Similar R v w) : v.isNil = w.isNil := by
  cases h <;> rfl

lemma isAtom_eq (h : Similar R v w) : v.isAtom = w.isAtom := by
  cases h <;> rfl

lemma isInteger_eq (h : Similar R v w) : v.isInteger = w.isInteger := by
  cases h <;> rfl

lemma elements (h : Similar R v w) : List.Forall₂ (Similar R) v.elements w.elements := by
  induction h with
  | pair hcar _ _ ihCdr =>
    rw [Value.elements_pair, Value.elements_pair]
    exact .cons hcar ihCdr
  | _ => exact .nil

lemma length_eq (h : Similar R v w) : v.length = w.length := by
  rw [← Value.length_elements, ← Value.length_elements]
  exact h.elements.length_eq

lemma ending (h : Similar R v w) : Similar R v.ending w.ending := by
  induction h with
  | atom name => exact .atom name
  | pair _ _ _ ihCdr => exact ihCdr
  | closure hlambda hformals hbody henv => exact .closure hlambda hformals hbody henv
  | «foreign» n => exact .foreign n

/-- Closures print without their environments. -/
lemma write_eq (h : Similar R v w) :
    (∀ done, write done v = write done w) ∧ ∀ done, writeRest done v = writeRest done w := by
  induction h with
  | atom name => exact ⟨fun _ => rfl, fun _ => rfl⟩
  | pair _ _ ihCar ihCdr =>
    refine ⟨?_, ?_⟩ <;> intro done
    · rw [write, write, ihCar.1, ihCdr.2]
    · rw [writeRest, writeRest, ihCar.1, ihCdr.2]
  | closure _ _ _ _ ihLambda _ _ =>
    refine ⟨?_, ?_⟩ <;> intro done
    · rw [write, write, ihLambda.1]
    · rw [writeRest, writeRest, ihLambda.1]
  | «foreign» n => exact ⟨fun _ => rfl, fun _ => rfl⟩

lemma obstacle_eq (h : Similar R v w) (room : Option Nat) :
    v.obstacle room = w.obstacle room := by
  induction h generalizing room with
  | atom name => rfl
  | pair _ _ ihCar ihCdr => rw [obstacle, obstacle, ihCar, ihCdr]
  | closure _ _ _ _ ihLambda _ _ => exact ihLambda room
  | «foreign» n => rfl

lemma print_eq (h : Similar R v w) (limits : Limits) : v.print limits = w.print limits := by
  rw [print, print, h.obstacle_eq, text, text, h.write_eq.1]

lemma display_eq (h : Similar R v w) (limits : Limits) : v.display limits = w.display limits := by
  cases h with
  | «foreign» n => rfl
  | atom name => rfl
  | pair hcar hcdr => exact (pair hcar hcdr).print_eq limits
  | closure hlambda hformals hbody henv =>
    exact (closure hlambda hformals hbody henv).print_eq limits

lemma represent_eq (h : Similar R v w) (limits : Limits) :
    v.represent limits = w.represent limits := by
  cases h with
  | «foreign» n => rfl
  | atom name => rfl
  | pair hcar hcdr => rw [represent, represent, (pair hcar hcdr).print_eq limits]
  | closure hlambda hformals hbody henv =>
    exact (closure hlambda hformals hbody henv).display_eq limits

lemma blame_eq (h : Similar R v w) (limits : Limits) (fault : String → Fault) :
    v.blame limits fault = w.blame limits fault := by
  rw [blame, blame, h.display_eq]

lemma like_blame {α β : Type} {r : α → β → Prop} (h : Similar R v w) (limits : Limits)
    (fault : String → Fault) :
    Like r (.error (v.blame limits fault)) (.error (w.blame limits fault)) := by
  rw [h.blame_eq]
  exact .error _

lemma toList (h : Similar R v w) (limits : Limits) :
    Like (List.Forall₂ (Similar R)) (v.toList limits) (w.toList limits) := by
  rw [Value.toList, Value.toList, h.ending.isNil_eq, h.ending.blame_eq]
  split
  · exact .ok h.elements
  · exact .error _

end Value.Similar

namespace Primitive

variable {R : Env ι → Env ι → Prop} {v w v' w' : Value ι}

open Value (Similar)

lemma nth?_similar (index : Nat) (h : Similar R v w) :
    Option.Rel (Similar R) (nth? index v) (nth? index w) := by
  induction h generalizing index with
  | pair hcar _ _ ihCdr =>
    rw [nth?, nth?]
    split
    · exact .some hcar
    · exact ihCdr (index - 1)
  | _ => exact .none

lemma operand_eq (limits : Limits) (operation : String) (h : Similar R v w) :
    operand limits operation v = operand limits operation w := by
  cases h with
  | atom name => rfl
  | «foreign» n => rfl
  | pair hcar hcdr =>
    rw [operand, operand, (Similar.pair hcar hcdr).blame_eq] <;> (intro name hname; cases hname)
  | closure hlambda hformals hbody henv =>
    rw [operand, operand, (Similar.closure hlambda hformals hbody henv).blame_eq] <;>
      (intro name hname; cases hname)

lemma operands_eq (limits : Limits) (operation : String) (hv : Similar R v v')
    (hw : Similar R w w') : operands limits operation v w = operands limits operation v' w' := by
  rw [operands, operands, operand_eq limits operation hv, operand_eq limits operation hw]

lemma calculate_similar (limits : Limits) (operation : Arithmetic) (hv : Similar R v v')
    (hw : Similar R w w') :
    Like (Similar R) (calculate limits operation v w) (calculate limits operation v' w') := by
  rw [calculate, calculate, operands_eq limits operation.symbol hv hw]
  cases operands limits operation.symbol v' w' with
  | error fault => exact .error fault
  | ok numbers =>
    cases h : operation.compute numbers.1 numbers.2 with
    | error fault => simp only [h]; exact .error fault
    | ok result =>
      simp only [h]
      cases Name.ofInt result with
      | error fault => exact .error fault
      | ok name => exact .ok (.atom name)

lemma compare_similar (limits : Limits) (order : Comparison) (hv : Similar R v v')
    (hw : Similar R w w') :
    Like (Similar R) (compare limits order v w) (compare limits order v' w') := by
  rw [compare, compare, operands_eq limits order.symbol hv hw]
  cases operands limits order.symbol v' w' with
  | error fault => exact .error fault
  | ok numbers => exact .ok (.truth _)

lemma equals_similar (limits : Limits) (hv : Similar R v v') (hw : Similar R w w') :
    Like (Similar R) (equals limits v w) (equals limits v' w') := by
  have hfirst := hv.display_eq limits
  have hsecond := hw.display_eq limits
  cases hv <;> cases hw
  case atom.atom m n => exact .ok (.truth (m == n))
  all_goals
    unfold equals
    dsimp only
    rw [hfirst, hsecond]
    split <;> exact .error _

/-- Results that are alike, with the same lines printed behind those before. -/
def Alongside (R : Env ι → Env ι → Prop) (s s' : State ι)
    (r r' : Except Fault (Value ι) × State ι) : Prop :=
  Like (Similar R) r.1 r'.1 ∧ ∃ lines, r.2.printed.toList = s.printed.toList ++ lines ∧
    r'.2.printed.toList = s'.printed.toList ++ lines

lemma alongside_of_printed {s s' s₁ s₁' : State ι} {o o' : Except Fault (Value ι)}
    (h : Like (Similar R) o o') (hs : s₁.printed = s.printed) (hs' : s₁'.printed = s'.printed) :
    Alongside R s s' (o, s₁) (o', s₁') := by
  refine ⟨h, [], ?_, ?_⟩
  · rw [List.append_nil, hs]
  · rw [List.append_nil, hs']

lemma performUnary_similar (limits : Limits) (operation : Unary) (h : Similar R v w)
    (s s' : State ι) :
    Alongside R s s' (performUnary limits operation v s) (performUnary limits operation w s') := by
  cases operation with
  | car =>
    cases h with
    | pair hcar hcdr => exact alongside_of_printed (.ok hcar) rfl rfl
    | atom name => exact alongside_of_printed (.error _) rfl rfl
    | «foreign» n => exact alongside_of_printed (.error _) rfl rfl
    | closure hlambda hformals hbody henv =>
      exact alongside_of_printed
        ((Similar.closure hlambda hformals hbody henv).like_blame limits _) rfl rfl
  | cdr =>
    cases h with
    | pair hcar hcdr => exact alongside_of_printed (.ok hcdr) rfl rfl
    | atom name => exact alongside_of_printed (.error _) rfl rfl
    | «foreign» n => exact alongside_of_printed (.error _) rfl rfl
    | closure hlambda hformals hbody henv =>
      exact alongside_of_printed
        ((Similar.closure hlambda hformals hbody henv).like_blame limits _) rfl rfl
  | atom =>
    simp only [performUnary, h.isAtom_eq]
    exact alongside_of_printed (.ok (.truth _)) rfl rfl
  | null =>
    simp only [performUnary, h.isNil_eq]
    exact alongside_of_printed (.ok (.truth _)) rfl rfl
  | print =>
    simp only [performUnary, h.print_eq]
    cases w.print limits with
    | error fault => exact alongside_of_printed (.error fault) rfl rfl
    | ok line =>
      refine ⟨.ok h, [line], ?_, ?_⟩
      · exact Array.toList_push
      · exact Array.toList_push
  | select index =>
    simp only [performUnary, h.blame_eq]
    have hnth := nth?_similar (index.toNat - 1) h
    cases hv : nth? (index.toNat - 1) v <;> cases hw : nth? (index.toNat - 1) w <;>
      rw [hv, hw] at hnth <;> cases hnth
    · exact alongside_of_printed (.error _) rfl rfl
    · rename_i helement
      exact alongside_of_printed (.ok helement) rfl rfl

lemma performBinary_similar [Marking ι] (limits : Limits) (operation : Binary)
    (hv : Similar R v v') (hw : Similar R w w') (s s' : State ι) :
    Alongside R s s' (performBinary limits operation v w s)
      (performBinary limits operation v' w' s') := by
  cases operation with
  | cons => exact alongside_of_printed (.ok (.pair hv hw)) rfl rfl
  | and =>
    simp only [performBinary, hv.isNil_eq]
    split
    · exact alongside_of_printed (.ok hv) rfl rfl
    · exact alongside_of_printed (.ok hw) rfl rfl
  | or =>
    simp only [performBinary, hv.isNil_eq]
    split
    · exact alongside_of_printed (.ok hw) rfl rfl
    · exact alongside_of_printed (.ok hv) rfl rfl
  | equals => exact alongside_of_printed (equals_similar limits hv hw) rfl rfl
  | arithmetic operation =>
    exact alongside_of_printed (calculate_similar limits operation hv hw) rfl rfl
  | comparison order => exact alongside_of_printed (compare_similar limits order hv hw) rfl rfl

lemma find_eq (name : String) (s : State ι) :
    ∃ s₁, find name s = (resolve name, s₁) ∧ s₁.printed = s.printed := by
  unfold find
  split <;> rename_i h
  · exact ⟨s, by rw [h], rfl⟩
  · exact ⟨s.log (.primitiveMissing _), by rw [h], rfl⟩
  · exact ⟨s, by rw [h], rfl⟩

/-- A primitive gives similar results for similar arguments and prints the same lines. -/
lemma apply_similar [Marking ι] (limits : Limits) (name : String) {arguments arguments' : Value ι}
    (h : Similar R arguments arguments') (s s' : State ι) :
    Alongside R s s' (apply limits name arguments s) (apply limits name arguments' s') := by
  obtain ⟨s₁, hfound, hprinted⟩ := find_eq name s
  obtain ⟨s₁', hfound', hprinted'⟩ := find_eq name s'
  rw [apply, apply, hfound, hfound']
  cases resolve name with
  | error fault => exact alongside_of_printed (.error fault) hprinted hprinted'
  | ok primitive =>
    dsimp only
    have htoList := h.toList limits
    cases hlist : arguments.toList limits <;> cases hlist' : arguments'.toList limits <;>
      rw [hlist, hlist'] at htoList <;> cases htoList
    · exact alongside_of_printed (.error _) hprinted hprinted'
    · rename_i values values' hvalues
      dsimp only
      have hlength := hvalues.length_eq
      have hmisuse (arity : Nat) : Alongside R s s'
          (.error (.primitiveArity name arity values.length),
            s₁.log (.primitiveMisused name values.length arity))
          (.error (.primitiveArity name arity values'.length),
            s₁'.log (.primitiveMisused name values'.length arity)) := by
        rw [hlength]
        exact alongside_of_printed (.error _) hprinted hprinted'
      have hperformed {r r' : Except Fault (Value ι) × State ι} (hr : Alongside R s₁ s₁' r r') :
          Alongside R s s' r r' := by
        rw [Alongside, hprinted, hprinted'] at hr
        exact hr
      cases primitive with
      | unary operation =>
        rcases hvalues with _ | ⟨hv, _ | ⟨hw, hmore⟩⟩
        · exact hmisuse 1
        · exact hperformed (performUnary_similar limits operation hv s₁ s₁')
        · exact hmisuse 1
      | binary operation =>
        rcases hvalues with _ | ⟨hv, _ | ⟨hw, _ | ⟨_, _⟩⟩⟩
        · exact hmisuse 2
        · exact hmisuse 2
        · exact hperformed (performBinary_similar limits operation hv hw s₁ s₁')
        · exact hmisuse 2

end Primitive

open Value (Similar)

lemma Machine.badParameter?_similar {R : Env ι → Env ι → Prop} {formals formals' : List (Value ι)}
    (h : List.Forall₂ (Similar R) formals formals') :
    Option.Rel (Similar R) (badParameter? formals) (badParameter? formals') := by
  induction h with
  | nil => exact .none
  | cons hformal _ ih =>
    rw [badParameter?, badParameter?, List.find?_cons, List.find?_cons, hformal.isAtom_eq,
      hformal.isInteger_eq]
    split
    · exact .some hformal
    · exact ih

inductive Demand.Similar (R : Env ι → Env ι → Prop) : Demand ι → Demand ι → Prop where
  | done {o o' : Except Fault (Value ι)} (h : Like (Value.Similar R) o o') :
      Similar R (.done o) (.done o')
  | closure {tail formals body tail' formals' body' : Value ι} (htail : tail.Similar R tail')
      (hformals : formals.Similar R formals') (hbody : body.Similar R body') :
      Similar R (.closure tail formals body) (.closure tail' formals' body')
  | operands {exprs exprs' : Value ι} (purpose : Purpose) (h : exprs.Similar R exprs') :
      Similar R (.operands exprs purpose) (.operands exprs' purpose)
  | branch {c a b c' a' b' : Value ι} (hc : c.Similar R c') (ha : a.Similar R a')
      (hb : b.Similar R b') : Similar R (.branch c a b) (.branch c' a' b')
  | second {a b a' b' : Value ι} (ha : a.Similar R a') (hb : b.Similar R b') :
      Similar R (.second a b) (.second a' b')
  | letrec {bs body bs' body' : Value ι} (hbs : bs.Similar R bs') (hbody : body.Similar R body') :
      Similar R (.letrec bs body) (.letrec bs' body')

namespace Demand

variable {R : Env ι → Env ι → Prop}

lemma ofLambda_similar (limits : Limits) {tail formals body tail' formals' body' : Value ι}
    (htail : tail.Similar R tail') (hformals : formals.Similar R formals')
    (hbody : body.Similar R body') :
    Similar R (ofLambda limits tail formals body) (ofLambda limits tail' formals' body') := by
  rw [ofLambda, ofLambda, hformals.ending.isNil_eq, hformals.ending.blame_eq]
  have hbad := Machine.badParameter?_similar hformals.elements
  cases hv : Machine.badParameter? formals.elements <;>
    cases hw : Machine.badParameter? formals'.elements <;> rw [hv, hw] at hbad <;> cases hbad
  · dsimp only
    split
    · exact .closure htail hformals hbody
    · exact .done (.error _)
  · rename_i hformal
    exact .done (hformal.like_blame limits _)

lemma ofForm_similar (limits : Limits) (form : Form) {tail tail' : Value ι}
    (h : tail.Similar R tail') :
    Similar R (ofForm limits form tail) (ofForm limits form tail') := by
  have htoList := h.toList limits
  cases form with
  | list => exact .operands .collect h
  | _ =>
    unfold ofForm
    dsimp only
    cases hlist : tail.toList limits <;> cases hlist' : tail'.toList limits <;>
      rw [hlist, hlist'] at htoList <;> cases htoList
    · exact .done (.error _)
    · rename_i hparts
      -- Up to three parts count; a form with another number of them is at fault.
      rcases hparts with _ | ⟨h₁, _ | ⟨h₂, _ | ⟨h₃, _ | ⟨_, _⟩⟩⟩⟩
      all_goals first
        | exact .done (.error _)
        | exact .done (.ok h₁)
        | exact .second h₁ h₂
        | exact .branch h₁ h₂ h₃
        | exact ofLambda_similar limits h h₁ h₂
        | exact .letrec h₁ h₂

lemma refusal_similar (limits : Limits) {e e' : Value ι} (h : e.Similar R e') :
    Similar R (.done ((e.represent limits).bind fun shown => .error (.cannotEvaluate shown)))
      (.done ((e'.represent limits).bind fun shown => .error (.cannotEvaluate shown))) := by
  rw [h.represent_eq]
  cases e'.represent limits <;> exact .done (.error _)

lemma ofExpr_similar (limits : Limits) {lookup lookup' : Value ι → Except Fault (Value ι)}
    (hlookup : ∀ name, Like (Value.Similar R) (lookup (.atom name)) (lookup' (.atom name)))
    {e e' : Value ι} (h : e.Similar R e') :
    Similar R (ofExpr limits lookup e) (ofExpr limits lookup' e') := by
  cases h with
  | atom name =>
    rw [ofExpr, ofExpr]
    split
    · exact .done (.ok (.atom name))
    · exact .done (hlookup name)
  | pair hhead htail =>
    cases hhead with
    | atom name =>
      rw [ofExpr, ofExpr]
      cases Form.ofName? name with
      | none => exact .operands .call (.pair (.atom name) htail)
      | some form => exact ofForm_similar limits form htail
    | pair hcar hcdr => exact .operands .call (.pair (.pair hcar hcdr) htail)
    | closure hlambda hformals hbody henv =>
      exact .operands .call (.pair (.closure hlambda hformals hbody henv) htail)
    | «foreign» n => exact .operands .call (.pair (.foreign n) htail)
  | closure hlambda hformals hbody henv =>
    exact refusal_similar limits (.closure hlambda hformals hbody henv)
  | «foreign» n => exact refusal_similar limits (.foreign n)

end Demand

/-- Bindings that have come equally far, with similar parts. -/
structure Binding.Similar (R : Env ι → Env ι → Prop) (b b' : Binding ι) : Prop where
  names : b.names.Similar R b'.names
  values : b.values.Similar R b'.values
  rest : b.rest.Similar R b'.rest
  body : b.body.Similar R b'.body
  env : R b.env b'.env

namespace Binding

variable {R : Env ι → Env ι → Prop}

lemma bindingParts_similar (limits : Limits) {binding binding' : Value ι}
    (h : binding.Similar R binding') :
    Like (List.Forall₂ (Value.Similar R)) (Machine.bindingParts limits binding)
      (Machine.bindingParts limits binding') := by
  cases h with
  | pair hcar hcdr => exact (Value.Similar.pair hcar hcdr).toList limits
  | _ => exact .ok .nil

/-- The next of similar bindings, if there is one. -/
def SimilarNext (R : Env ι → Env ι → Prop) : Option (Value ι × Value ι × Value ι) →
    Option (Value ι × Value ι × Value ι) → Prop :=
  Option.Rel fun x y => x.1.Similar R y.1 ∧ x.2.1.Similar R y.2.1 ∧ x.2.2.Similar R y.2.2

lemma Similar.next {b b' : Binding ι} (h : b.Similar R b') (limits : Limits) :
    Like (SimilarNext R) (b.next limits) (b'.next limits) := by
  obtain ⟨names, values, rest, body, env, frame⟩ := b
  obtain ⟨names', values', rest', body', env', frame'⟩ := b'
  have hrest := h.rest
  dsimp only at hrest
  unfold Binding.next
  cases hrest with
  | @pair mark mark' binding tail binding' tail' hbinding htail =>
    dsimp only
    have hparts := bindingParts_similar limits hbinding
    have hmalformed : Like (SimilarNext R) (.error (binding.blame limits .malformedBinding))
        (.error (binding'.blame limits .malformedBinding)) := hbinding.like_blame limits _
    generalize Machine.bindingParts limits binding = parts at hparts ⊢
    generalize Machine.bindingParts limits binding' = parts' at hparts ⊢
    cases hparts with
    | error fault => exact .error fault
    | ok hparts =>
      rcases hparts with _ | ⟨hname, _ | ⟨hexpr, _ | ⟨_, _⟩⟩⟩
      · exact hmalformed
      · cases hname <;> exact hmalformed
      · cases hname with
        | atom name =>
          dsimp only
          split
          · exact hmalformed
          · exact .ok (.some ⟨.atom name, hexpr, htail⟩)
        | _ => exact hmalformed
      · cases hname <;> exact hmalformed
  | atom name =>
    dsimp only
    split
    · exact .ok .none
    · exact .error _
  | closure hlambda hformals hbody henv =>
    exact (Value.Similar.closure hlambda hformals hbody henv).like_blame limits _
  | «foreign» n => exact .error _

end Binding

lemma Value.Similar.misfit? {R : Env ι → Env ι → Prop} {call call' : Value ι}
    (h : call.Similar R call') : Option.Rel (Value.Similar R) call.misfit? call'.misfit? := by
  cases h with
  | pair hhead htail =>
    cases hhead with
    | atom name => exact .none
    | pair hcar hcdr => exact .some (.pair hcar hcdr)
    | closure hlambda hformals hbody henv => exact .none
    | «foreign» n => exact .some (.foreign n)
  | atom name => exact .some (.atom name)
  | closure hlambda hformals hbody henv => exact .some (.closure hlambda hformals hbody henv)
  | «foreign» n => exact .some (.foreign n)

/-- Both pending, or both filled with similar names and values. -/
inductive Frame.Similar (R : Env ι → Env ι → Prop) : Frame ι → Frame ι → Prop where
  | pending : Similar R .pending .pending
  | filled {names values names' values' : Value ι} (hnames : names.Similar R names')
      (hvalues : values.Similar R values') :
      Similar R (.filled names values) (.filled names' values')

namespace Frame.Similar

variable {R R' : Env ι → Env ι → Prop}

lemma mono (hR : ∀ env env', R env env' → R' env env') {f f' : Frame ι} (h : Similar R f f') :
    Similar R' f f' := by
  cases h with
  | pending => exact .pending
  | filled hnames hvalues => exact .filled (hnames.mono hR) (hvalues.mono hR)

lemma findIn [DecidableEq ι] (name : String) {names values names' values' : Value ι}
    (hnames : names.Similar R names') (hvalues : values.Similar R values') :
    Option.Rel (Value.Similar R) (Frame.findIn (.atom name) names values)
      (Frame.findIn (.atom name) names' values') := by
  induction hnames generalizing values values' with
  | pair hname _ _ ih =>
    cases hvalues with
    | pair hvalue hrest =>
      rw [Frame.findIn, Frame.findIn]
      have halike : ∀ {n n' : Value ι}, n.Similar R n' →
          n.alike (.atom name) = n'.alike (.atom name) := by
        intro n n' h
        cases h <;> rfl
      rw [halike hname]
      split
      · exact .some hvalue
      · exact ih hrest
    | _ => exact .none
  | _ => exact .none

lemma find [DecidableEq ι] (name : String) {f f' : Frame ι} (h : Similar R f f') :
    Option.Rel (Value.Similar R) (f.find (.atom name)) (f'.find (.atom name)) := by
  cases h with
  | pending => exact .none
  | filled hnames hvalues => exact findIn name hnames hvalues

end Frame.Similar

end Evlis
