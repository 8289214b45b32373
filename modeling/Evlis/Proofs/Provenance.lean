import Evlis.Proofs.WellFormedness

/-!
# Where names come from

A run of a program makes no names but those of the truth values and of integers: all other names in
its values stand in the program. The global names are bound to themselves, so that looking up a name
that stands in the program gives this name. As every environment of the run ends in the frame of the
global names, a name without a value is none of them.
-/

namespace Evlis

/-- What a run keeps to: the names of its atoms, the faults it may end in, the lines it may print
behind those that were there before, and the number of its outermost frame. -/
structure Purview where
  names : String → Prop
  faults : Fault → Prop
  lines : String → Prop
  before : List String
  base : Nat
  makes : ∀ name, Primitive.Makes name → names name
  isLocal : ∀ fault, fault.IsLocal → faults fault
  refilled : faults .frameFilled

/-- The environment has frames of the run only, the outermost one at its end. -/
structure Purview.Roots (K : Purview) (env : Env Unit) : Prop where
  within : EnvWithin (K.base ≤ ·) env
  last : env.getLast? = some ⟨(), K.base⟩

lemma Purview.Roots.cons {K : Purview} {env : Env Unit} (h : K.Roots env) {n : Nat}
    (hn : K.base ≤ n) : K.Roots (⟨(), n⟩ :: env) := by
  refine ⟨h.within.cons hn, ?_⟩
  rw [List.getLast?_cons, h.last]
  rfl

namespace Value

/-- An atom of the name stands somewhere in the value; in a closure, that is in its lambda
expression. -/
def HasAtom (name : String) : Value Unit → Prop
  | .atom other => other = name
  | .pair _ car cdr => car.HasAtom name ∨ cdr.HasAtom name
  | .closure _ lambda formals body _ =>
    lambda.HasAtom name ∨ formals.HasAtom name ∨ body.HasAtom name
  | .foreign _ => False

/-- All atoms in the value have names that the run keeps to. -/
def MadeOf (K : Purview) : Value Unit → Prop
  | .atom name => K.names name
  | .pair _ car cdr => car.MadeOf K ∧ cdr.MadeOf K
  | .closure _ lambda formals body env =>
    lambda.MadeOf K ∧ formals.MadeOf K ∧ body.MadeOf K ∧ K.Roots env
  | .foreign _ => False

namespace MadeOf

variable {K : Purview} {v w : Value Unit}

lemma names (h : v.MadeOf K) {name : String} (hname : v.HasAtom name) : K.names name := by
  induction v with
  | atom other =>
    obtain rfl : other = name := hname
    exact h
  | pair mark car cdr ihCar ihCdr =>
    rcases hname with hname | hname
    · exact ihCar h.1 hname
    · exact ihCdr h.2 hname
  | closure mark lambda formals body env ihLambda ihFormals ihBody =>
    rcases hname with hname | hname | hname
    · exact ihLambda h.1 hname
    · exact ihFormals h.2.1 hname
    · exact ihBody h.2.2.1 hname
  | «foreign» n => exact hname.elim

lemma nil : (Value.nil : Value Unit).MadeOf K := K.makes "nil" (.inr (.inl rfl))

lemma of_ofSExpr {e : SExpr} (h : ∀ name, (ofSExpr e).HasAtom name → K.names name) :
    (ofSExpr e).MadeOf K := by
  induction e with
  | atom name => exact h name rfl
  | pair car cdr ihCar ihCdr =>
    rw [ofSExpr_pair] at h ⊢
    exact ⟨ihCar fun name hname => h name (.inl hname), ihCdr fun name hname => h name (.inr hname)⟩

lemma of_mem (h : v.MadeOf K) (hw : w ∈ v.elements) : w.MadeOf K := by
  induction v with
  | pair mark car cdr _ ih =>
    rw [elements_pair] at hw
    rcases List.mem_cons.mp hw with rfl | hw
    · exact h.1
    · exact ih h.2 hw
  | _ => cases hw

lemma chain {front : List (Value Unit)} {tail : Value Unit} (hfront : ∀ v ∈ front, v.MadeOf K)
    (htail : tail.MadeOf K) :
    (front.foldl (fun tail v => Value.pair () v tail) tail).MadeOf K := by
  induction front generalizing tail with
  | nil => exact htail
  | cons v front ih =>
    exact ih (fun v hv => hfront v (by simp [hv])) ⟨hfront v (by simp), htail⟩

lemma congruence : Congruence fun v w : Value Unit => v = w ∧ v.MadeOf K where
  atom made := ⟨rfl, K.makes _ made⟩
  pair := by
    intro mark mark' car cdr car' cdr'
    constructor
    · rintro ⟨hsame, hcar, hcdr⟩
      cases hsame
      exact ⟨⟨rfl, hcar⟩, rfl, hcdr⟩
    · rintro ⟨⟨rfl, hcar⟩, rfl, hcdr⟩
      exact ⟨rfl, hcar, hcdr⟩
  similar := by
    rintro v _ ⟨rfl, -⟩
    exact .refl v

end MadeOf

lemma elements_chain (front : List (Value Unit)) (tail : Value Unit) :
    (front.foldl (fun tail v => Value.pair () v tail) tail).elements =
      front.reverse ++ tail.elements := by
  induction front generalizing tail with
  | nil => rfl
  | cons v front ih => simp [ih]

end Value

/-- The names that the run keeps to have no values but such as are made of them. -/
def Frame.Yields (K : Purview) (frame : Frame Unit) : Prop :=
  ∀ name v, K.names name → frame.find (.atom name) = some v → v.MadeOf K

namespace Frame

variable {K : Purview}

lemma yields_filled {values : Value Unit} (h : values.MadeOf K) (names : Value Unit) :
    (filled names values).Yields K := by
  intro name v _ hfound
  rw [find] at hfound
  induction names generalizing values with
  | pair mark n names _ ih =>
    cases values with
    | pair mark' value values =>
      rw [findIn] at hfound
      split at hfound
      · cases hfound
        exact h.1
      · exact ih h.2 hfound
    | _ => cases hfound
  | _ => cases hfound

lemma yields_self (names : Value Unit) : (filled names names).Yields K := by
  intro name v hname hfound
  rw [find] at hfound
  induction names with
  | pair mark n names _ ih =>
    rw [findIn] at hfound
    split at hfound
    · rename_i halike
      obtain rfl : n = v := Option.some.inj hfound
      cases n with
      | atom other =>
        obtain rfl : other = name := by simpa [Value.alike] using halike
        exact hname
      | _ => simp [Value.alike] at halike
    · exact ih hfound
  | _ => cases hfound

end Frame

structure State.Abides (K : Purview) (s : State Unit) : Prop where
  grown : K.base ≤ s.frames.size
  frames : ∀ n frame, s.frames[n]? = some frame → K.base ≤ n → frame.Yields K
  printed : ∃ lines, s.printed.toList = K.before ++ lines ∧ ∀ line ∈ lines, K.lines line

namespace State.Abides

variable {K : Purview} {s s' : State Unit}

lemma of_same (h : s.Abides K) (hframes : s'.frames = s.frames)
    (hprinted : s'.printed = s.printed) : s'.Abides K := by
  refine ⟨?_, ?_, ?_⟩
  · rw [hframes]
    exact h.grown
  · rw [hframes]
    exact h.frames
  · rw [hprinted]
    exact h.printed

lemma push (h : s.Abides K) {frame : Frame Unit} (hframe : frame.Yields K)
    (hframes : s'.frames = s.frames.push frame) (hprinted : s'.printed = s.printed) :
    s'.Abides K := by
  refine ⟨?_, ?_, ?_⟩
  · rw [hframes, Array.size_push]
    exact Nat.le_succ_of_le h.grown
  · rw [hframes]
    exact forall_push h.frames fun _ => hframe
  · rw [hprinted]
    exact h.printed

lemma set (h : s.Abides K) {number : Nat} {frame : Frame Unit} (hframe : frame.Yields K)
    (hframes : s'.frames = s.frames.setIfInBounds number frame)
    (hprinted : s'.printed = s.printed) : s'.Abides K := by
  refine ⟨?_, ?_, ?_⟩
  · rw [hframes, Array.size_setIfInBounds]
    exact h.grown
  · rw [hframes]
    exact forall_setIfInBounds h.frames fun _ => hframe
  · rw [hprinted]
    exact h.printed

lemma print (h : s.Abides K) {line : String} (hline : K.lines line)
    (hframes : s'.frames = s.frames) (hprinted : s'.printed = s.printed.push line) :
    s'.Abides K := by
  obtain ⟨lines, hlines, hall⟩ := h.printed
  refine ⟨?_, ?_, lines ++ [line], ?_, ?_⟩
  · rw [hframes]
    exact h.grown
  · rw [hframes]
    exact h.frames
  · rw [hprinted, Array.toList_push, hlines, List.append_assoc]
  · intro other hother
    rcases List.mem_append.mp hother with hother | hother
    · exact hall other hother
    · rw [List.mem_singleton.mp hother]
      exact hline

lemma lookup? (h : s.Abides K) {env : Env Unit} (henv : EnvWithin (K.base ≤ ·) env)
    {name : String} (hname : K.names name) {v : Value Unit}
    (hfound : s.lookup? (.atom name) env = some v) : v.MadeOf K := by
  induction env with
  | nil => cases hfound
  | cons rib outer ih =>
    have houter : EnvWithin (K.base ≤ ·) outer := fun rib hrib => henv rib (.tail _ hrib)
    rw [State.lookup?] at hfound
    split at hfound
    · exact ih houter hfound
    · rename_i frame hframe
      split at hfound
      · rename_i found
        cases hfound
        exact h.frames _ _ hframe (henv rib List.mem_cons_self) name v hname found
      · exact ih houter hfound

end State.Abides

structure Binding.Abides (K : Purview) (b : Binding Unit) : Prop where
  values : b.values.MadeOf K
  rest : b.rest.MadeOf K
  body : b.body.MadeOf K
  env : K.Roots b.env

/-- Operands are not shared out in a run in order. -/
def Cont.Abides (K : Purview) : Cont Unit → Prop
  | .operand values rest env _ => (∀ v ∈ values, v.MadeOf K) ∧ rest.MadeOf K ∧ K.Roots env
  | .branch consequent alternative env =>
    consequent.MadeOf K ∧ alternative.MadeOf K ∧ K.Roots env
  | .second e env => e.MadeOf K ∧ K.Roots env
  | .bind _ b => b.Abides K
  | .share _ _ _ | .inline _ => False

def Control.Abides (K : Purview) : Control Unit → Prop
  | .enter e env => e.MadeOf K ∧ K.Roots env
  | .bounce e env => e.MadeOf K ∧ K.Roots env
  | .give v => v.MadeOf K
  | .fail fault => K.faults fault
  | .fork _ | .submit _ _ | .join _ _ _ _ => False

def Demand.Abides (K : Purview) : Demand Unit → Prop
  | .done (.ok v) => v.MadeOf K
  | .done (.error fault) => K.faults fault
  | .closure tail formals body =>
    K.names "lambda" ∧ tail.MadeOf K ∧ formals.MadeOf K ∧ body.MadeOf K
  | .operands exprs _ => exprs.MadeOf K
  | .branch condition consequent alternative =>
    condition.MadeOf K ∧ consequent.MadeOf K ∧ alternative.MadeOf K
  | .second first last => first.MadeOf K ∧ last.MadeOf K
  | .letrec bindings body => bindings.MadeOf K ∧ body.MadeOf K

structure Machine.Abides (K : Purview) (c : Thread Unit × State Unit) : Prop where
  control : c.1.control.Abides K
  stack : ∀ cont ∈ c.1.stack, cont.Abides K
  state : c.2.Abides K

/-- The value that a thread is about to print, if it is at the end of a call of `print`. -/
def Thread.printing? (thread : Thread Unit) : Option (Value Unit) :=
  match thread.control, thread.stack with
  | .give v, .operand [.atom "print"] rest _ .call :: _ => if rest.isNil then some v else none
  | _, _ => none

namespace Demand

variable {K : Purview}

lemma abides_ofLambda (limits : Limits) (hlambda : K.names "lambda")
    {tail formals body : Value Unit} (htail : tail.MadeOf K) (hformals : formals.MadeOf K)
    (hbody : body.MadeOf K) :
    (ofLambda limits tail formals body).Abides K := by
  unfold ofLambda
  split
  · exact K.isLocal _ (Value.isLocal_blame fun _ => trivial)
  · split
    · exact ⟨hlambda, htail, hformals, hbody⟩
    · exact K.isLocal _ (Value.isLocal_blame fun _ => trivial)

/-- A form asks for its own parts. -/
lemma abides_ofForm (limits : Limits) {name : String} (hname : K.names name) {form : Form}
    (hform : Form.ofName? name = some form) {tail : Value Unit} (htail : tail.MadeOf K) :
    (ofForm limits form tail).Abides K := by
  have hlambda : form = .lambda → K.names "lambda" := by
    rintro rfl
    rwa [← Form.eq_lambda hform]
  unfold ofForm
  split
  · exact htail
  · split
    · rename_i listed
      exact K.isLocal _ (Value.isLocal_of_toList listed)
    · rename_i parts listed
      have hparts : ∀ v ∈ parts, v.MadeOf K := by
        intro v hv
        refine htail.of_mem ?_
        rwa [Value.elements_of_toList listed]
      split
      · exact hparts _ (by simp)
      · exact ⟨hparts _ (by simp), hparts _ (by simp)⟩
      · exact ⟨hparts _ (by simp), hparts _ (by simp), hparts _ (by simp)⟩
      · exact abides_ofLambda limits (hlambda rfl) htail (hparts _ (by simp)) (hparts _ (by simp))
      · exact ⟨hparts _ (by simp), hparts _ (by simp)⟩
      · exact K.isLocal _ trivial

lemma abides_ofExpr (limits : Limits) {lookup : Value Unit → Except Fault (Value Unit)}
    {e : Value Unit} (he : e.MadeOf K)
    (hlookup : ∀ name, e = .atom name → Name.isInteger name = false →
      Demand.Abides K (.done (lookup (.atom name)))) : (ofExpr limits lookup e).Abides K := by
  cases e with
  | atom name =>
    rw [ofExpr]
    split
    · exact he
    · rename_i hinteger
      exact hlookup name rfl (Bool.eq_false_iff.mpr hinteger)
  | pair mark head tail =>
    cases head with
    | atom name =>
      rw [ofExpr]
      split
      · rename_i form hform
        exact abides_ofForm limits he.1 hform he.2
      · exact he
    | _ => exact he
  | closure mark lambda formals body env =>
    unfold ofExpr
    dsimp only
    cases hrepresent : (Value.closure mark lambda formals body env).represent limits with
    | ok shown => exact K.isLocal _ trivial
    | error fault => exact K.isLocal _ (Value.isLocal_of_represent hrepresent)
  | «foreign» n => exact he.elim

end Demand

namespace Primitive

variable {limits : Limits}

lemma eq_print {name : String} (h : resolve name = .ok (.unary .print)) : name = "print" := by
  unfold resolve at h
  split at h
  · rename_i hnamed
    cases h
    unfold named? at hnamed
    split at hnamed <;> simp_all
  · split at h
    · split at h
      · cases h
      · split at h <;> cases h
    · cases h

lemma printed_performUnary (operation : Unary) (v : Value Unit) (s : State Unit) :
    (performUnary limits operation v s).2.printed = s.printed ∨
      ∃ line, operation = .print ∧ v.print limits = .ok line ∧
        (performUnary limits operation v s).2.printed = s.printed.push line := by
  cases operation with
  | car => cases v <;> exact .inl rfl
  | cdr => cases v <;> exact .inl rfl
  | print =>
    unfold performUnary
    cases hprint : v.print limits with
    | ok line => exact .inr ⟨line, rfl, rfl, rfl⟩
    | error fault => exact .inl rfl
  | select index =>
    unfold performUnary
    dsimp only
    split <;> exact .inl rfl
  | _ => exact .inl rfl

/-- Of the primitives only `print` prints, and that is its argument. -/
lemma printed_apply (limits : Limits) (name : String) (arguments : Value Unit) (s : State Unit) :
    (apply limits name arguments s).2.printed = s.printed ∨
      ∃ w line, name = "print" ∧ arguments.elements = [w] ∧ w.print limits = .ok line ∧
        (apply limits name arguments s).2.printed = s.printed.push line := by
  obtain ⟨s₁, hfind, hprinted⟩ := find_eq name s
  rw [apply, hfind, ← hprinted]
  cases hresolve : resolve name with
  | error fault => exact .inl rfl
  | ok primitive =>
    dsimp only
    split
    · exact .inl rfl
    · rename_i values listed
      have hvalues : arguments.elements = values := Value.elements_of_toList listed
      split
      · rename_i operation v
        rcases printed_performUnary operation v s₁ with hsame | ⟨line, rfl, hline, hpush⟩
        · exact .inl hsame
        · exact .inr ⟨v, line, eq_print hresolve, hvalues, hline, hpush⟩
      · rename_i operation v w
        cases operation <;> exact .inl rfl
      · exact .inl rfl

end Primitive

lemma Binding.Abides.next {K : Purview} {limits : Limits} {b : Binding Unit} (h : b.Abides K)
    {name e rest : Value Unit} (hnext : b.next limits = .ok (some (name, e, rest))) :
    e.MadeOf K ∧ ({ b with rest } : Binding Unit).Abides K := by
  obtain ⟨mark, binding, hrest, hparts, -⟩ := Binding.eq_of_next hnext
  have hmade := h.rest
  rw [hrest] at hmade
  refine ⟨hmade.1.of_mem ?_, h.values, hmade.2, h.body, h.env⟩
  rw [hparts]
  simp

namespace Machine

variable {K : Purview} {limits : Limits} {stack : List (Cont Unit)} {s : State Unit}

lemma abides_await {cont : Cont Unit} (hcont : cont.Abides K) {e : Value Unit} {env : Env Unit}
    (he : e.MadeOf K) (henv : K.Roots env) (hstack : ∀ cont ∈ stack, cont.Abides K)
    (hs : s.Abides K) : Abides K (await limits cont e env stack s) := by
  unfold await
  split
  · exact ⟨⟨he, henv⟩, List.forall_mem_cons.mpr ⟨hcont, hstack⟩, hs⟩
  · exact ⟨K.isLocal _ trivial, hstack, hs⟩

lemma abides_primitive {name : String} {arguments : Value Unit} (harguments : arguments.MadeOf K)
    (hprints : ∀ w line, name = "print" → arguments.elements = [w] → w.print limits = .ok line →
      K.lines line) (hs : s.Abides K) :
    (Demand.done (Primitive.apply limits name arguments s).1).Abides K ∧
      (Primitive.apply limits name arguments s).2.Abides K := by
  have hframes := Primitive.frames_apply limits name arguments s
  refine ⟨?_, ?_⟩
  · have hlike := (Primitive.apply_congruent Value.MadeOf.congruence limits name
      ⟨rfl, harguments⟩ s s).1
    cases houtcome : (Primitive.apply limits name arguments s).1 with
    | ok v =>
      rw [houtcome] at hlike
      cases hlike with
      | ok h => exact h.2
    | error fault => exact K.isLocal _ (Primitive.isLocal_of_apply houtcome)
  · rcases Primitive.printed_apply limits name arguments s with
      hprinted | ⟨w, line, hname, hw, hline, hprinted⟩
    · exact hs.of_same hframes hprinted
    · exact hs.print (hprints w line hname hw hline) hframes hprinted

lemma abides_apply {call : Value Unit} (hcall : call.MadeOf K)
    (hprints : ∀ w line, call.elements = [.atom "print", w] → w.print limits = .ok line →
      K.lines line)
    (hstack : ∀ cont ∈ stack, cont.Abides K) (hs : s.Abides K) :
    Abides K (apply limits call stack s) := by
  have hmisfit : ∀ v : Value Unit, Abides K (fail (v.blame limits .illegalFunction) stack s) :=
    fun v => ⟨K.isLocal _ (Value.isLocal_blame fun _ => trivial), hstack, hs⟩
  unfold apply
  split
  · rename_i name arguments
    have hprint : ∀ w line, name = "print" → arguments.elements = [w] → w.print limits = .ok line →
        K.lines line := by
      rintro w line rfl hw
      exact hprints w line (by rw [Value.elements_pair, hw])
    obtain ⟨hresult, hs'⟩ := abides_primitive hcall.2 hprint hs
    split
    · rename_i applied
      rw [applied] at hresult hs'
      exact ⟨hresult, hstack, hs'⟩
    · rename_i applied
      rw [applied] at hresult hs'
      exact ⟨hresult, hstack, hs'⟩
  · rename_i lambda formals body env arguments
    obtain ⟨⟨-, -, hbody, henv⟩, harguments⟩ := hcall
    unfold extendEnv
    by_cases hlength : formals.length = arguments.length
    · rw [if_pos hlength]
      have hframe : (Frame.filled formals arguments).Yields K := Frame.yields_filled harguments _
      exact ⟨⟨hbody, henv.cons hs.grown⟩, hstack, hs.push hframe rfl rfl⟩
    · rw [if_neg hlength]
      exact ⟨K.isLocal _ (Value.isLocal_blame fun _ => trivial), hstack, hs⟩
  · exact hmisfit _
  · exact hmisfit _

lemma abides_finish {operands : Value Unit} (hoperands : operands.MadeOf K) (purpose : Purpose)
    (hprints : purpose = .call → ∀ w line, operands.elements = [.atom "print", w] →
      w.print limits = .ok line → K.lines line)
    (hstack : ∀ cont ∈ stack, cont.Abides K) (hs : s.Abides K) :
    Abides K (finish limits purpose operands stack s) := by
  cases purpose with
  | call => exact abides_apply hoperands (hprints rfl) hstack hs
  | collect => exact ⟨hoperands, hstack, hs⟩

lemma abides_nextOperand {values : List (Value Unit)} (hvalues : ∀ v ∈ values, v.MadeOf K)
    {rest : Value Unit} (hrest : rest.MadeOf K) {env : Env Unit} (henv : K.Roots env)
    (purpose : Purpose)
    (hprints : rest.isNil → purpose = .call → ∀ w line, values = [w, .atom "print"] →
      w.print limits = .ok line → K.lines line)
    (hstack : ∀ cont ∈ stack, cont.Abides K) (hs : s.Abides K) :
    Abides K (nextOperand limits values rest env purpose stack s) := by
  unfold nextOperand
  split
  · have hcont : (Cont.operand values _ env purpose).Abides K := ⟨hvalues, hrest.2, henv⟩
    exact abides_await hcont hrest.1 henv hstack hs
  · split
    · rename_i hnil
      rw [State.chain_unit]
      refine abides_finish (.chain hvalues .nil) purpose (fun hpurpose w line hcall => ?_) hstack hs
      have hempty : (Value.nil : Value Unit).elements = [] := rfl
      rw [Value.elements_chain, hempty] at hcall
      exact hprints hnil hpurpose w line (by simpa using hcall)
    · exact ⟨K.isLocal _ (Value.isLocal_blame fun _ => trivial), hstack, hs⟩

lemma abides_nextBinding {b : Binding Unit} (hb : b.Abides K)
    (hstack : ∀ cont ∈ stack, cont.Abides K) (hs : s.Abides K) :
    Abides K (nextBinding limits b stack s) := by
  rw [nextBinding_eq]
  split
  · rename_i hnext
    exact ⟨K.isLocal _ (Binding.isLocal_of_next hnext), hstack, hs⟩
  · rename_i name e rest hnext
    obtain ⟨he, hothers⟩ := hb.next hnext
    have hcont : (Cont.bind name { b with rest }).Abides K := hothers
    exact abides_await hcont he hb.env hstack hs
  · have hframe : (Frame.filled b.names b.values).Yields K := Frame.yields_filled hb.values _
    unfold State.fill
    split
    · rename_i hfill
      split at hfill
      · cases hfill
      · cases hfill
        exact ⟨K.refilled, hstack, hs⟩
    · rename_i hfill
      split at hfill
      · cases hfill
        exact ⟨⟨hb.body, hb.env⟩, hstack, hs.set hframe rfl rfl⟩
      · cases hfill

lemma abides_evaluate {e : Value Unit} (he : e.MadeOf K) {env : Env Unit} (henv : K.Roots env)
    (unbound : ∀ name, e = .atom name → Name.isInteger name = false →
      s.lookup? (.atom name) env = none → K.faults (.unbound name))
    (hstack : ∀ cont ∈ stack, cont.Abides K) (hs : s.Abides K) :
    Abides K (evaluate limits .inOrder e env stack s) := by
  have hlookup : ∀ name, e = .atom name → Name.isInteger name = false →
      Demand.Abides K (.done (s.lookup limits env (.atom name))) := by
    rintro name rfl hinteger
    unfold State.lookup
    split
    · rename_i found
      exact hs.lookup? henv.within he found
    · rename_i missing
      exact unbound name rfl hinteger missing
  have hdemand := Demand.abides_ofExpr limits he hlookup
  rw [evaluate_eq_pursue]
  generalize Demand.ofExpr limits (s.lookup limits env) e = demand at hdemand
  cases demand with
  | done outcome =>
    cases outcome with
    | ok v => exact ⟨hdemand, hstack, hs⟩
    | error fault => exact ⟨hdemand, hstack, hs⟩
  | closure tail formals body =>
    obtain ⟨hlambda, htail, hformals, hbody⟩ := hdemand
    exact ⟨⟨⟨hlambda, htail⟩, hformals, hbody, henv⟩, hstack, hs.of_same rfl rfl⟩
  | operands exprs purpose =>
    exact abides_nextOperand (by simp) hdemand henv purpose (by simp) hstack hs
  | branch condition consequent alternative =>
    obtain ⟨hcondition, hconsequent, halternative⟩ := hdemand
    have hcont : (Cont.branch consequent alternative env).Abides K :=
      ⟨hconsequent, halternative, henv⟩
    exact abides_await hcont hcondition henv hstack hs
  | second first last =>
    have hcont : (Cont.second last env).Abides K := ⟨hdemand.2, henv⟩
    exact abides_await hcont hdemand.1 henv hstack hs
  | letrec bindings body =>
    have hpending : (Frame.pending : Frame Unit).Yields K := fun _ _ _ h => by cases h
    have hs' : (s.suspend bindings body env).2.Abides K := hs.push hpending rfl rfl
    have hb : (s.suspend bindings body env).1.Abides K :=
      ⟨.nil, hdemand.1, hdemand.2, henv.cons hs.grown⟩
    exact abides_nextBinding hb hstack hs'

lemma abides_resume {cont : Cont Unit} (hcont : cont.Abides K) {v : Value Unit} (hv : v.MadeOf K)
    (hprints : ∀ w line, (Thread.mk (.give v) (cont :: stack)).printing? = some w →
      w.print limits = .ok line → K.lines line)
    (hstack : ∀ cont ∈ stack, cont.Abides K) (hs : s.Abides K) :
    Abides K (resume limits cont v stack s) := by
  cases cont with
  | operand values rest env purpose =>
    obtain ⟨hvalues, hrest, henv⟩ := hcont
    have hmore : ∀ w ∈ v :: values, w.MadeOf K := List.forall_mem_cons.mpr ⟨hv, hvalues⟩
    refine abides_nextOperand hmore hrest henv purpose ?_ hstack hs
    rintro hnil rfl w line hprint
    obtain ⟨rfl, rfl⟩ := List.cons.inj hprint
    exact hprints v line (by simp [Thread.printing?, hnil])
  | branch consequent alternative env =>
    obtain ⟨hconsequent, halternative, henv⟩ := hcont
    refine ⟨⟨?_, henv⟩, hstack, hs⟩
    split
    · exact halternative
    · exact hconsequent
  | second e env => exact ⟨hcont, hstack, hs⟩
  | bind name b =>
    have hb : Binding.Abides K b := hcont
    exact abides_nextBinding ⟨⟨hv, hb.values⟩, hb.rest, hb.body, hb.env⟩ hstack
      (hs.of_same rfl rfl)
  | share rest env purpose => exact hcont.elim
  | inline sharing => exact hcont.elim

/-- A step in order keeps to the purview, if this covers what the step prints and the fault of a
name that it does not find. -/
theorem abides_step {c : Thread Unit × State Unit} (hc : Abides K c)
    (hprints : ∀ w line, c.1.printing? = some w → w.print limits = .ok line → K.lines line)
    (unbound : ∀ name env, c.1.control = .enter (.atom name) env ∨
      c.1.control = .bounce (.atom name) env → K.Roots env → Name.isInteger name = false →
      c.2.lookup? (.atom name) env = none → K.faults (.unbound name)) :
    Abides K (step limits .inOrder c.1 c.2) := by
  obtain ⟨⟨control, stack⟩, s⟩ := c
  obtain ⟨hcontrol, hstack, hs⟩ := hc
  dsimp only at hcontrol hstack hs hprints unbound
  cases control with
  | enter e env =>
    refine abides_evaluate hcontrol.1 hcontrol.2 ?_ hstack hs
    rintro name rfl
    exact unbound name env (.inl rfl) hcontrol.2
  | bounce e env =>
    refine abides_evaluate hcontrol.1 hcontrol.2 ?_ hstack hs
    rintro name rfl
    exact unbound name env (.inr rfl) hcontrol.2
  | give v =>
    cases stack with
    | nil => exact ⟨hcontrol, hstack, hs⟩
    | cons cont stack =>
      obtain ⟨hcont, hwaiting⟩ := List.forall_mem_cons.mp hstack
      exact abides_resume hcont hcontrol hprints hwaiting hs
  | _ => exact ⟨hcontrol, hstack, hs⟩

end Machine

/-! ## Runs of programs -/

/-- The names that the values of a program can show: its own, and those that primitives make. -/
def SExpr.AccountsFor (program : SExpr) (name : String) : Prop :=
  (Value.ofSExpr program).HasAtom name ∨ Primitive.Makes name

lemma Value.PartOf.hasAtom {name : String} {v : Value Unit} (h : (Value.atom name).PartOf v) :
    v.HasAtom name := by
  induction h with
  | whole => rfl
  | car _ ih => exact .inl ih
  | cdr _ ih => exact .inr ih

/-- A name that is not found in an environment is not bound by its last frame. -/
lemma State.find_of_lookup? {s : State Unit} {name : Value Unit} {env : Env Unit} {rib : Rib Unit}
    (hlast : env.getLast? = some rib) {frame : Frame Unit}
    (hframe : s.frames[rib.frame]? = some frame) (hmissing : s.lookup? name env = none) :
    frame.find name = none := by
  induction env with
  | nil => cases hlast
  | cons first outer ih =>
    have houter : s.lookup? name outer = none ∧
        ∀ frame, s.frames[first.frame]? = some frame → frame.find name = none := by
      rw [State.lookup?] at hmissing
      split at hmissing
      · rename_i hnone
        exact ⟨hmissing, by simp [hnone]⟩
      · rename_i found hfound
        split at hmissing
        · cases hmissing
        · rename_i hunbound
          refine ⟨hmissing, ?_⟩
          rintro frame hframe
          rw [hfound] at hframe
          cases hframe
          exact hunbound
    cases outer with
    | nil =>
      cases hlast
      exact houter.2 frame hframe
    | cons second outer => exact ih hlast houter.1

lemma notMem_globalNames {name : String}
    (h : (Frame.filled globalList globalList).find (.atom name) = none) : name ∉ globalNames := by
  have hbound : ∀ name ∈ globalNames,
      (Frame.filled globalList globalList).find (.atom name) ≠ none := by decide
  exact fun hname => hbound name hname h

namespace Machine

variable {limits : Limits} {program : SExpr} {s : State Unit} {c : Thread Unit × State Unit}

def purviewOf (limits : Limits) (program : SExpr) (s : State Unit) : Purview where
  names := program.AccountsFor
  faults fault := ∀ name, fault = .unbound name →
    (Value.ofSExpr program).HasAtom name ∧ Name.isInteger name = false ∧ name ∉ globalNames
  lines line := ∃ c w, Reaches limits (ofProgram program s) c ∧ c.1.printing? = some w ∧
    w.print limits = .ok line
  before := s.printed.toList
  base := s.frames.size
  makes _ made := .inr made
  isLocal := by
    rintro fault hlocal name rfl
    exact hlocal.elim
  refilled := nofun

lemma abides_ofProgram (limits : Limits) (program : SExpr) (s : State Unit) :
    Abides (purviewOf limits program s) (ofProgram program s) := by
  have hprogram : (Value.ofSExpr program).MadeOf (purviewOf limits program s) :=
    .of_ofSExpr fun _ hname => .inl hname
  have hroots : (purviewOf limits program s).Roots [⟨(), s.frames.size⟩] := by
    refine ⟨?_, rfl⟩
    intro rib hrib
    rw [List.mem_singleton.mp hrib]
    exact Nat.le_refl _
  have hs : s.Abides (purviewOf limits program s) := by
    refine ⟨Nat.le_refl _, ?_, [], (List.append_nil _).symm, nofun⟩
    intro n frame hfound hn
    exact absurd (lt_size_of_getElem? hfound) (Nat.not_lt.mpr hn)
  rw [ofProgram_eq]
  exact ⟨⟨hprogram, hroots⟩, nofun, hs.push (Frame.yields_self globalList) rfl rfl⟩

/-- The frame of the global names stays as it is. -/
lemma globalFrame_of_reaches (h : Reaches limits (ofProgram program s) c) :
    c.2.frames[s.frames.size]? = some (.filled globalList globalList) := by
  refine filled_persists h ?_
  rw [ofProgram_eq]
  exact Array.getElem?_push_size

/-- The run of a program keeps to its purview. -/
theorem abides_reaches (hreadable : program.Readable)
    (h : Reaches limits (ofProgram program s) c) : Abides (purviewOf limits program s) c := by
  induction h with
  | refl => exact abides_ofProgram limits program s
  | @tail b c hreach hstep ih =>
    rw [← hstep]
    refine abides_step ih (fun w line hw hline => ⟨b, w, hreach, hw, hline⟩) ?_
    rintro name env hcontrol hroots hinteger hmissing other ⟨⟩
    -- values that are no parts of the program, such as decimal texts, are never evaluated
    have hpart : (Value.atom name).PartOf (.ofSExpr program) := by
      have hregular := (regular_reaches (regular_ofProgram hreadable s _) hreach).control
      rcases hcontrol with hcontrol | hcontrol
      · rw [hcontrol] at hregular
        exact hregular.1
      · rw [hcontrol] at hregular
        exact hregular.1
    have hunbound := State.find_of_lookup? hroots.last (globalFrame_of_reaches hreach) hmissing
    exact ⟨hpart.hasAtom, hinteger, notMem_globalNames hunbound⟩

lemma madeOf_of_printing {K : Purview} (hc : Abides K c) {w : Value Unit}
    (h : c.1.printing? = some w) : w.MadeOf K := by
  obtain ⟨⟨control, stack⟩, s⟩ := c
  have hcontrol := hc.control
  unfold Thread.printing? at h
  split at h
  · rename_i hgives _
    split at h
    · cases h
      rw [hgives] at hcontrol
      exact hcontrol
    · cases h
  · cases h

end Machine

lemma Interpreter.abides_of_eval {limits : Limits} {code : String} {program : SExpr}
    (accepted : read limits.nesting code = .ok program) {fuel : Nat} {s s' : State Unit}
    {outcome : Except Fault (Value Unit)} {interpreter : Interpreter}
    (h : Interpreter.eval fuel limits ⟨.inOrder⟩ code s = some (outcome, interpreter, s')) :
    (Demand.done outcome).Abides (Machine.purviewOf limits program s) := by
  obtain ⟨thread, hreach, houtcome⟩ := reaches_of_eval accepted h
  have hend := (Machine.abides_reaches (readable_of_read accepted).1 hreach).control
  cases outcome with
  | ok v => rwa [Thread.of_outcome_ok houtcome] at hend
  | error fault => rwa [Thread.of_outcome_error houtcome] at hend

/-- A program fabricates no names. All atoms in its value and in the values that it prints stand in
the program, or are `t`, `nil` or the decimal text of an integer; and if a name is found to have no
value, it stands in the program, does not read as an integer and is no global name. -/
theorem names_come_from_program {limits : Limits} {code : String} {program : SExpr}
    (accepted : read limits.nesting code = .ok program) (s : State Unit) :
    (∀ fuel v interpreter s',
      Interpreter.eval fuel limits ⟨.inOrder⟩ code s = some (.ok v, interpreter, s') →
      ∀ name, v.HasAtom name → program.AccountsFor name) ∧
    (∀ c, Machine.Reaches limits (Machine.ofProgram program s) c →
      (∀ w, c.1.printing? = some w → ∀ name, w.HasAtom name → program.AccountsFor name) ∧
      ∃ lines, c.2.printed.toList = s.printed.toList ++ lines ∧
        ∀ line ∈ lines, ∃ c' w, Machine.Reaches limits (Machine.ofProgram program s) c' ∧
          c'.1.printing? = some w ∧ w.print limits = .ok line) ∧
    ∀ fuel name interpreter s',
      Interpreter.run fuel limits ⟨.inOrder⟩ code s =
        some (.error (.unbound name), interpreter, s') →
      (Value.ofSExpr program).HasAtom name ∧ Name.isInteger name = false ∧
        name ∉ globalNames := by
  have hreadable := (readable_of_read accepted).1
  refine ⟨?_, ?_, ?_⟩
  · intro fuel v interpreter s' heval name hname
    exact Value.MadeOf.names (Interpreter.abides_of_eval accepted heval) hname
  · intro c hc
    have habides := Machine.abides_reaches hreadable hc
    refine ⟨?_, habides.state.printed⟩
    intro w hw name hname
    exact (Machine.madeOf_of_printing habides hw).names hname
  · intro fuel name interpreter s' hrun
    rw [Interpreter.run] at hrun
    split at hrun
    · cases hrun
    · rename_i heval
      cases hrun
      exact Interpreter.abides_of_eval accepted heval name rfl
    · simp only [Option.some.injEq, Prod.mk.injEq] at hrun
      exact (Value.isLocal_of_print hrun.1).elim

/-- A dotted pair with the name of a sum is printed before a name is found to have no value. -/
theorem names_of_sum_and_unbound :
    let code := "(prog2 (print (cons (quote a) (+ 1 2))) y)"
    let program := SExpr.ofList [.atom "prog2", .ofList [.atom "print", .ofList [.atom "cons",
      .ofList [.atom "quote", .atom "a"], .ofList [.atom "+", .atom "1", .atom "2"]]], .atom "y"]
    read none code = .ok program ∧
      (∃ c, Machine.Reaches .none (Machine.ofProgram program .empty) c ∧
        c.1.printing? = some (.pair () (.atom "a") (.atom "3")) ∧ program.AccountsFor "3") ∧
      ∃ interpreter s', Interpreter.run 40 .none ⟨.inOrder⟩ code .empty =
          some (.error (.unbound "y"), interpreter, s') ∧ s'.printed = #["(a . 3)"] ∧
        (Value.ofSExpr program).HasAtom "y" ∧ Name.isInteger "y" = false ∧ "y" ∉ globalNames := by
  intro code program
  have accepted : read Limits.none.nesting code = .ok program := by decide +kernel
  obtain ⟨-, hprinting, hunbound⟩ := names_come_from_program accepted .empty
  have hfound : (Machine.runUntil Thread.printing? .none 40 (Machine.ofProgram program .empty).1
      (Machine.ofProgram program .empty).2).map Prod.fst =
        some (.pair () (.atom "a") (.atom "3")) := by decide +kernel
  obtain ⟨⟨w, s₁⟩, hrun, rfl⟩ := Option.map_eq_some_iff.mp hfound
  obtain ⟨thread, hreach, hw⟩ := Machine.reaches_of_runUntil hrun
  have hthree := (hprinting _ hreach).1 _ hw "3" (.inr rfl)
  have hends : (Interpreter.run 40 .none ⟨.inOrder⟩ code .empty).map
      (fun r => (r.1, r.2.2.printed)) = some (.error (.unbound "y"), #["(a . 3)"]) := by
    decide +kernel
  obtain ⟨⟨result, interpreter, s'⟩, hsome, hresult⟩ := Option.map_eq_some_iff.mp hends
  obtain ⟨rfl, hprinted⟩ := Prod.mk.inj hresult
  exact ⟨accepted, ⟨_, hreach, hw, hthree⟩, interpreter, s', hsome, hprinted,
    hunbound _ _ _ _ hsome⟩

end Evlis
