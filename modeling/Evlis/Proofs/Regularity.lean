import Evlis.Proofs.Congruence
import Evlis.Proofs.RoundTrip
import Evlis.Proofs.Scopes

/-!
# Regular states

A program text stands for a tree of atoms and of pairs in which every chain ends in `nil`. A state
is regular for such a program if the expressions in it are parts of the program, its frames bind
lists of names to lists of as many values, and its values are atoms, pairs, and closures of lambda
expressions of the program. An expression of the program asks for nothing else.
-/

namespace Evlis

namespace Value

variable {ι : Type}

/-- The value stands somewhere in a tree of pairs. -/
inductive PartOf (v : Value ι) : Value ι → Prop where
  | whole : PartOf v v
  | car {mark : ι} {car cdr : Value ι} (h : PartOf v car) : PartOf v (.pair mark car cdr)
  | cdr {mark : ι} {car cdr : Value ι} (h : PartOf v cdr) : PartOf v (.pair mark car cdr)

lemma PartOf.trans {u v w : Value ι} (huv : u.PartOf v) (hvw : v.PartOf w) : u.PartOf w := by
  induction hvw with
  | whole => exact huv
  | car _ ih => exact .car ih
  | cdr _ ih => exact .cdr ih

lemma PartOf.of_mem {v w whole : Value ι} (h : w.PartOf whole) (hv : v ∈ w.elements) :
    v.PartOf whole := by
  refine PartOf.trans ?_ h
  clear h
  induction w with
  | pair mark car cdr _ ih =>
    rw [elements_pair] at hv
    rcases List.mem_cons.mp hv with rfl | hv
    · exact .car .whole
    · exact .cdr (ih hv)
  | _ => cases hv

lemma isNil_iff {v : Value ι} : v.isNil = true ↔ v = .nil := by
  cases v <;> simp [isNil, nil]

/-- Trees of atoms and of pairs in which every chain ends in `nil`. -/
def Written : Value ι → Prop
  | .atom _ => True
  | .pair _ car cdr => car.Written ∧ cdr.Written ∧ cdr.ending = nil
  | _ => False

lemma Written.part {v w : Value ι} (h : v.PartOf w) (hw : w.Written) : v.Written := by
  induction h with
  | whole => exact hw
  | car _ ih => exact ih hw.1
  | cdr _ ih => exact ih hw.2.1

lemma ending_ofSExpr (e : SExpr) : (ofSExpr e).ending = ofSExpr e.ending := by
  induction e with
  | atom name => rfl
  | pair car cdr _ ih =>
    rw [ofSExpr_pair]
    exact ih

lemma written_ofSExpr {e : SExpr} (h : e.Readable) : (ofSExpr e).Written := by
  induction e with
  | atom name => trivial
  | pair car cdr ihCar ihCdr =>
    rw [ofSExpr_pair]
    obtain ⟨hcar, hcdr, hending⟩ := h
    refine ⟨ihCar hcar, ihCdr hcdr, ?_⟩
    rw [ending_ofSExpr, hending]
    rfl

lemma toList_of_ending {v : Value ι} (h : v.ending = .nil) (limits : Limits) :
    v.toList limits = .ok v.elements := by
  rw [Value.toList, h]
  rfl

/-- A chain is known by its elements and its end. -/
lemma eq_of_elements {v w : Value Unit} (helements : v.elements = w.elements)
    (hending : v.ending = w.ending) : v = w := by
  induction v generalizing w with
  | pair mark car cdr _ ih =>
    cases w with
    | pair mark' car' cdr' =>
      rw [elements_pair, elements_pair] at helements
      obtain ⟨rfl, hcdr⟩ := List.cons.inj helements
      rw [ih hcdr hending]
    | _ =>
      rw [elements_pair] at helements
      cases helements
  | _ =>
    cases w with
    | pair mark' car' cdr' =>
      rw [elements_pair] at helements
      cases helements
    | _ => exact hending

lemma Written.obstacle {v : Value ι} (hv : v.Written) {room : Option Nat} {fault : Fault}
    (h : v.obstacle room = some fault) : fault = .tooDeep := by
  induction v generalizing room with
  | atom name => cases h
  | pair mark car cdr ihCar ihCdr =>
    rw [Value.obstacle] at h
    split at h
    · cases h
      rfl
    · split at h
      · rename_i found
        cases h
        exact ihCar hv.1 found
      · exact ihCdr hv.2.1 h
  | _ => exact hv.elim

lemma ending_chain (front : List (Value Unit)) (tail : Value Unit) :
    (front.foldl (fun tail v => Value.pair () v tail) tail).ending = tail.ending := by
  induction front generalizing tail with
  | nil => rfl
  | cons v front ih => exact ih _

/-- A list of names that do not read as integers. -/
def IsParameters (v : Value ι) : Prop :=
  v.ending = .nil ∧ ∀ formal ∈ v.elements, ∃ name, formal = .atom name ∧ Name.isInteger name = false

lemma isParameters_nil : (nil : Value ι).IsParameters := ⟨rfl, nofun⟩

lemma IsParameters.cons {v : Value ι} (h : v.IsParameters) {name : String}
    (hname : Name.isInteger name = false) (mark : ι) :
    (Value.pair mark (.atom name) v).IsParameters := by
  refine ⟨h.1, ?_⟩
  intro formal hformal
  rw [elements_pair] at hformal
  rcases List.mem_cons.mp hformal with rfl | hformal
  · exact ⟨name, rfl, hname⟩
  · exact h.2 formal hformal

lemma isParameters_of_badParameter? {formals : Value ι} (hending : formals.ending = .nil)
    (h : Machine.badParameter? formals.elements = none) : formals.IsParameters := by
  refine ⟨hending, ?_⟩
  intro formal hformal
  have hgood := List.find?_eq_none.mp h formal hformal
  cases formal with
  | atom name => exact ⟨name, rfl, by simpa [isAtom, isInteger] using hgood⟩
  | _ => simp [isAtom] at hgood

end Value

/-- A run of a program that is written so, which adds the frames from number `base` on. -/
structure Course where
  program : Value Unit
  written : program.Written
  base : Nat

abbrev Course.Owns (r : Course) (env : Env Unit) : Prop := EnvWithin (r.base ≤ ·) env

namespace Value

/-- The values that a run works with: the lambda expressions of closures are parts of the
program. -/
inductive Regular (r : Course) : Value Unit → Prop where
  | atom (name : String) : Regular r (.atom name)
  | pair {car cdr : Value Unit} (hcar : Regular r car) (hcdr : Regular r cdr) :
      Regular r (.pair () car cdr)
  | closure {formals body : Value Unit} {env : Env Unit}
      (part : (Value.pair () formals (.pair () body .nil)).PartOf r.program)
      (parameters : formals.IsParameters) (owned : r.Owns env) :
      Regular r
        (.closure () (.pair () (.atom "lambda") (.pair () formals (.pair () body .nil))) formals
          body env)

namespace Regular

variable {r : Course} {v w : Value Unit}

lemma of_written (h : v.Written) : v.Regular r := by
  induction v with
  | atom name => exact .atom name
  | pair mark car cdr ihCar ihCdr => exact .pair (ihCar h.1) (ihCdr h.2.1)
  | _ => exact h.elim

lemma part (hv : v.Regular r) (h : w.PartOf v) : w.Regular r := by
  induction h with
  | whole => exact hv
  | car _ ih =>
    cases hv with
    | pair hcar _ => exact ih hcar
  | cdr _ ih =>
    cases hv with
    | pair _ hcdr => exact ih hcdr

lemma congruence : Congruence fun v w : Value Unit => v = w ∧ v.Regular r where
  atom _ := ⟨rfl, .atom _⟩
  pair := by
    intro mark mark' car cdr car' cdr'
    refine ⟨?_, ?_⟩
    · rintro ⟨hsame, hpair⟩
      cases hsame
      cases hpair with
      | pair hcar hcdr => exact ⟨⟨rfl, hcar⟩, rfl, hcdr⟩
    · rintro ⟨⟨rfl, hcar⟩, rfl, hcdr⟩
      exact ⟨rfl, .pair hcar hcdr⟩
  similar := by
    rintro v _ ⟨rfl, -⟩
    exact .refl v

lemma chain {front : List (Value Unit)} {tail : Value Unit}
    (hfront : ∀ v ∈ front, v.Regular r) (htail : tail.Regular r) :
    (front.foldl (fun tail v => Value.pair () v tail) tail).Regular r := by
  induction front generalizing tail with
  | nil => exact htail
  | cons v front ih =>
    exact ih (fun v hv => hfront v (by simp [hv])) (.pair (hfront v (by simp)) htail)

/-- Only their nesting keeps regular values from being printed. -/
lemma tooDeep_of_print (hv : v.Regular r) {limits : Limits}
    {fault : Fault} (h : v.print limits = .error fault) : fault = .tooDeep := by
  have hobstacle : ∀ room, v.obstacle room = some fault → fault = .tooDeep := by
    clear h
    induction hv with
    | atom name => nofun
    | pair _ _ ihCar ihCdr =>
      intro room h
      rw [obstacle] at h
      split at h
      · cases h
        rfl
      · split at h
        · rename_i found
          cases h
          exact ihCar _ found
        · exact ihCdr _ h
    | closure part _ _ =>
      intro room h
      have hlambda : (Value.pair () (.atom "lambda") _ : Value Unit).Written :=
        ⟨trivial, r.written.part part, rfl⟩
      exact hlambda.obstacle h
  unfold print at h
  split at h
  · rename_i found
    cases h
    exact hobstacle _ found
  · cases h

lemma isPlain_blame (hv : v.Regular r) (limits : Limits)
    {fault : String → Fault} (h : ∀ shown, (fault shown).IsOwn) :
    (v.blame limits fault).IsPlain := by
  have hcause : v.MayCause limits (v.blame limits fault) := mayCause_blame h
  rcases hcause with own | unprinted
  · exact own.isPlain
  · rw [hv.tooDeep_of_print unprinted]
    trivial

end Regular

end Value

/-- Frames bind lists of names to lists of as many values. -/
def Frame.Regular (r : Course) : Frame Unit → Prop
  | .pending => True
  | .filled names values =>
    names.IsParameters ∧ values.Regular r ∧ values.ending = .nil ∧ values.length = names.length

/-- Bindings under way: as many names as values so far, and a list of bindings still to come. -/
structure Binding.Regular (r : Course) (b : Binding Unit) : Prop where
  names : b.names.IsParameters
  values : b.values.Regular r
  ending : b.values.ending = .nil
  length : b.values.length = b.names.length
  rest : b.rest.PartOf r.program
  proper : b.rest.ending = .nil
  body : b.body.PartOf r.program
  env : r.Owns b.env

/-- Operands being shared out: those still to come are expressions of the program. -/
structure Sharing.Regular (r : Course) (sharing : Sharing Unit) : Prop where
  head : sharing.head.Regular r
  ready : ∀ v, .ready v ∈ sharing.underway → v.Regular r
  rest : ∀ e ∈ sharing.rest, e.PartOf r.program
  env : r.Owns sharing.env

def Cont.Regular (r : Course) : Cont Unit → Prop
  | .operand values rest env _ =>
    (∀ v ∈ values, v.Regular r) ∧ rest.PartOf r.program ∧ rest.ending = .nil ∧ r.Owns env
  | .branch consequent alternative env =>
    consequent.PartOf r.program ∧ alternative.PartOf r.program ∧ r.Owns env
  | .second e env => e.PartOf r.program ∧ r.Owns env
  | .bind name b => (∃ n, name = .atom n ∧ Name.isInteger n = false) ∧ b.Regular r
  | .share rest env _ => rest.PartOf r.program ∧ rest.ending = .nil ∧ r.Owns env
  | .inline sharing => sharing.Regular r

/-- What an evaluation does next, where it fails only for the faults in `F`. -/
def Control.Regular (r : Course) (F : Fault → Prop) : Control Unit → Prop
  | .enter e env => e.PartOf r.program ∧ r.Owns env
  | .bounce e env => e.PartOf r.program ∧ r.Owns env
  | .give v => v.Regular r
  | .fail fault => F fault
  | .fork sharing => sharing.Regular r
  | .submit e sharing => e.PartOf r.program ∧ sharing.Regular r
  | .join head values underway _ =>
    head.Regular r ∧ (∀ v ∈ values, v.Regular r) ∧ ∀ v, .ready v ∈ underway → v.Regular r

/-- All frames that the run has added are regular. -/
structure State.Regular (r : Course) (s : State Unit) : Prop where
  grown : r.base ≤ s.frames.size
  frames : ∀ n frame, r.base ≤ n → s.frames[n]? = some frame → frame.Regular r

namespace State.Regular

variable {r : Course} {s s' : State Unit}

lemma of_frames (h : s.Regular r) (hframes : s'.frames = s.frames) : s'.Regular r := by
  refine ⟨?_, ?_⟩
  · rw [hframes]
    exact h.grown
  · rw [hframes]
    exact h.frames

lemma push (h : s.Regular r) {frame : Frame Unit} (hframe : frame.Regular r)
    (hframes : s'.frames = s.frames.push frame) : s'.Regular r := by
  refine ⟨?_, ?_⟩
  · rw [hframes, Array.size_push]
    exact Nat.le_succ_of_le h.grown
  · rw [hframes]
    exact fun n other hn hfound =>
      forall_push (fun n other hfound hn => h.frames n other hn hfound) (fun _ => hframe) n other
        hfound hn

lemma set (h : s.Regular r) {number : Nat} {frame : Frame Unit} (hframe : frame.Regular r)
    (hframes : s'.frames = s.frames.setIfInBounds number frame) : s'.Regular r := by
  refine ⟨?_, ?_⟩
  · rw [hframes, Array.size_setIfInBounds]
    exact h.grown
  · rw [hframes]
    exact fun n other hn hfound =>
      forall_setIfInBounds (fun n other hfound hn => h.frames n other hn hfound) (fun _ => hframe) n
        other hfound hn

lemma lookup? (h : s.Regular r) {env : Env Unit} (henv : r.Owns env) {name v : Value Unit}
    (hfound : s.lookup? name env = some v) : v.Regular r := by
  have hfindIn : ∀ names values : Value Unit, values.Regular r →
      ∀ v, Frame.findIn name names values = some v → v.Regular r := by
    intro names
    induction names with
    | pair mark n names _ ih =>
      intro values hvalues v hv
      cases hvalues with
      | pair hvalue hvalues =>
        rw [Frame.findIn] at hv
        split at hv
        · cases hv
          exact hvalue
        · exact ih _ hvalues v hv
      | _ => cases hv
    | _ =>
      intro values _ v hv
      cases hv
  induction env with
  | nil => cases hfound
  | cons rib outer ih =>
    have houter : r.Owns outer := fun rib hrib => henv rib (.tail _ hrib)
    rw [State.lookup?] at hfound
    split at hfound
    · exact ih houter hfound
    · rename_i frame hframe
      split at hfound
      · rename_i found
        cases hfound
        have hregular := h.frames _ _ (henv rib List.mem_cons_self) hframe
        cases frame with
        | pending => cases found
        | filled names values => exact hfindIn names values hregular.2.1 v found
      · exact ih houter hfound

end State.Regular

namespace Machine

structure Regular (r : Course) (F : Fault → Prop) (c : Thread Unit × State Unit) : Prop where
  control : c.1.control.Regular r F
  stack : ∀ cont ∈ c.1.stack, cont.Regular r
  state : c.2.Regular r

end Machine

lemma Form.eq_lambda {name : String} (h : Form.ofName? name = some .lambda) : name = "lambda" := by
  unfold ofName? at h
  split at h <;> simp_all

lemma Form.eq_letrec {name : String} (h : Form.ofName? name = some .letrec) : name = "letrec" := by
  unfold ofName? at h
  split at h <;> simp_all

/-- A name where a list of parameters or of bindings must stand. -/
def Value.MisplacedName (e : Value Unit) (name : String) : Prop :=
  name ≠ "nil" ∧ ∃ form body, (form = "lambda" ∨ form = "letrec") ∧
    e = .pair () (.atom form) (.pair () (.atom name) (.pair () body .nil))

/-! ## What an expression asks for -/

def Demand.Regular (r : Course) (F : Fault → Prop) : Demand Unit → Prop
  | .done (.ok v) => v.Regular r
  | .done (.error fault) => F fault
  | .closure tail formals body =>
    tail = .pair () formals (.pair () body .nil) ∧ tail.PartOf r.program ∧ formals.IsParameters
  | .operands exprs _ => exprs.PartOf r.program ∧ exprs.ending = .nil
  | .branch condition consequent alternative =>
    condition.PartOf r.program ∧ consequent.PartOf r.program ∧ alternative.PartOf r.program
  | .second first last => first.PartOf r.program ∧ last.PartOf r.program
  | .letrec bindings body =>
    bindings.PartOf r.program ∧ body.PartOf r.program ∧
      (bindings.ending = .nil ∨
        ∃ name, name ≠ "nil" ∧ bindings = .atom name ∧ F (.improperTail name))

namespace Demand

variable {r : Course} {F : Fault → Prop}

/-- A lambda expression of the program has a list of parameters, or a name in its place. -/
lemma regular_ofLambda (plain : ∀ fault, fault.IsPlain → F fault) (limits : Limits)
    {tail formals body : Value Unit} (hpart : tail.PartOf r.program)
    (htail : tail = .pair () formals (.pair () body .nil))
    (misplaced : ∀ name, name ≠ "nil" → formals = .atom name → F (.improperTail name)) :
    (ofLambda limits tail formals body).Regular r F := by
  have hwritten : formals.Written := by
    rw [htail] at hpart
    exact r.written.part (.trans (.car .whole) hpart)
  unfold ofLambda
  split
  · rename_i formal hbad
    have hformal : formal ∈ formals.elements := List.mem_of_find?_eq_some hbad
    have hregular : formal.Regular r := .of_written (hwritten.part (.of_mem .whole hformal))
    exact plain _ (hregular.isPlain_blame limits fun _ => trivial)
  · rename_i hgood
    split
    · rename_i hnil
      exact ⟨htail, hpart, Value.isParameters_of_badParameter? (Value.isNil_iff.mp hnil) hgood⟩
    · rename_i hnil
      cases formals with
      | atom name =>
        refine misplaced name ?_ rfl
        rintro rfl
        exact hnil rfl
      | pair mark car cdr => exact absurd (Value.isNil_iff.mpr hwritten.2.2) hnil
      | _ => exact hwritten.elim

lemma regular_ofForm (plain : ∀ fault, fault.IsPlain → F fault) (limits : Limits) {name : String}
    {form : Form} (hform : Form.ofName? name = some form) {tail : Value Unit}
    (hpart : tail.PartOf r.program) (hending : tail.ending = .nil)
    (misplaced : ∀ other, (Value.pair () (.atom name) tail).MisplacedName other →
      F (.improperTail other)) :
    (ofForm limits form tail).Regular r F := by
  have helements : ∀ v ∈ tail.elements, v.PartOf r.program := fun v hv => hpart.of_mem hv
  have htwo : ∀ first second, tail.elements = [first, second] →
      tail = .pair () first (.pair () second .nil) := by
    intro first second h
    exact Value.eq_of_elements h hending
  have hlambda : form = .lambda → ∀ formals body, tail.elements = [formals, body] →
      (ofLambda limits tail formals body).Regular r F := by
    rintro rfl formals body h
    refine regular_ofLambda plain limits hpart (htwo _ _ h) ?_
    rintro other hother rfl
    exact misplaced other ⟨hother, name, body, .inl (Form.eq_lambda hform), by rw [htwo _ _ h]⟩
  have hletrec : form = .letrec → ∀ bindings body, tail.elements = [bindings, body] →
      (Demand.letrec bindings body).Regular r F := by
    rintro rfl bindings body h
    rw [h] at helements
    have hbindings : bindings.PartOf r.program := helements _ (by simp)
    have hwritten := r.written.part hbindings
    refine ⟨hbindings, helements _ (by simp), ?_⟩
    cases bindings with
    | atom other =>
      by_cases hother : other = "nil"
      · rw [hother]
        exact .inl rfl
      · refine .inr ⟨other, hother, rfl, misplaced other ?_⟩
        exact ⟨hother, name, body, .inr (Form.eq_letrec hform), by rw [htwo _ _ h]⟩
    | pair mark car cdr => exact .inl hwritten.2.2
    | _ => exact hwritten.elim
  cases form with
  | list => exact ⟨hpart, hending⟩
  | _ =>
    unfold ofForm
    dsimp only
    rw [Value.toList_of_ending hending]
    dsimp only
    generalize tail.elements = parts at helements hlambda hletrec
    -- Up to three parts count; a form with another number of them is at fault.
    rcases parts with _ | ⟨first, _ | ⟨second, _ | ⟨third, _ | ⟨_, _⟩⟩⟩⟩
    all_goals first
      | exact plain _ trivial
      | exact .of_written (r.written.part (helements _ (by simp)))
      | exact ⟨helements _ (by simp), helements _ (by simp)⟩
      | exact ⟨helements _ (by simp), helements _ (by simp), helements _ (by simp)⟩
      | exact hlambda rfl _ _ rfl
      | exact hletrec rfl _ _ rfl

lemma regular_ofExpr (plain : ∀ fault, fault.IsPlain → F fault) (limits : Limits)
    {lookup : Value Unit → Except Fault (Value Unit)} {e : Value Unit}
    (hlookup : ∀ name, Demand.Regular r F (.done (lookup (.atom name))))
    (hpart : e.PartOf r.program)
    (misplaced : ∀ name, e.MisplacedName name → F (.improperTail name)) :
    (ofExpr limits lookup e).Regular r F := by
  have hwritten := r.written.part hpart
  cases e with
  | atom name =>
    rw [ofExpr]
    split
    · exact .atom name
    · exact hlookup name
  | pair mark head tail =>
    obtain ⟨hhead, htail, hending⟩ := hwritten
    cases head with
    | atom name =>
      rw [ofExpr]
      split
      · rename_i form hform
        exact regular_ofForm plain limits hform (.trans (.cdr .whole) hpart) hending misplaced
      · exact ⟨hpart, hending⟩
    | _ => exact ⟨hpart, hending⟩
  | _ => exact hwritten.elim

end Demand

end Evlis
