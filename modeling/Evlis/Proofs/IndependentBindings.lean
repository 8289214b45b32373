import Evlis.Proofs.Lockstep
import Evlis.Proofs.Scopes

/-!
# Bindings without recursion

A `letrec` evaluates its expressions with a pending frame in front of the environment, and fills
the frame with the last binding first. A call of a lambda expression evaluates them without that
frame, and then adds a frame with the first binding first. If the names are distinct and occur in
none of the expressions, nothing can be seen of this.
-/

namespace Evlis

namespace Value

def ofList (elements : List (Value Unit)) : Value Unit := elements.foldr (.pair ()) .nil

@[simp]
lemma ofList_nil : ofList [] = .nil := rfl

@[simp]
lemma ofList_cons (v : Value Unit) (vs : List (Value Unit)) :
    ofList (v :: vs) = .pair () v (ofList vs) := rfl

@[simp]
lemma elements_ofList (vs : List (Value Unit)) : (ofList vs).elements = vs := by
  induction vs with
  | nil => rfl
  | cons v vs ih => rw [ofList_cons, elements_pair, ih]

@[simp]
lemma ending_ofList (vs : List (Value Unit)) : (ofList vs).ending = .nil := by
  induction vs with
  | nil => rfl
  | cons v vs ih => exact ih

@[simp]
lemma length_ofList (vs : List (Value Unit)) : (ofList vs).length = vs.length := by
  rw [← length_elements, elements_ofList]

/-- Values in front of a list, last first. -/
lemma foldl_pair_nil (vs : List (Value Unit)) :
    vs.foldl (fun tail v => .pair () v tail) .nil = ofList vs.reverse := by
  rw [ofList, List.foldr_reverse]

lemma Akin.ofList {D : Detour} {ρ : Nat → Nat → Prop} {vs vs' : List (Value Unit)}
    (h : List.Forall₂ (Value.Akin D ρ) vs vs') : (ofList vs).Akin D ρ (ofList vs') := by
  induction h with
  | nil => exact .atom "nil"
  | cons hv _ ih => exact .pair hv ih

end Value

abbrev Bindings := List (String × Value Unit)

namespace Bindings

def names (bs : Bindings) : Value Unit := .ofList ((bs.map Prod.fst).map .atom)

def values (bs : Bindings) : Value Unit := .ofList (bs.map Prod.snd)

/-- The names are distinct and can be bound, and none of them occurs in what they are bound to. -/
structure Independent (bs : Bindings) : Prop where
  distinct : (bs.map Prod.fst).Nodup
  proper : ∀ b ∈ bs, Name.isInteger b.1 = false
  apart : ∀ b ∈ bs, ∀ b' ∈ bs, ¬ b'.2.Mentions b.1

/-- The expression `(lambda (x1 ... xn) body)`. -/
def lambda (bs : Bindings) (body : Value Unit) : Value Unit :=
  .ofList [.atom "lambda", bs.names, body]

/-- The expression `((lambda (x1 ... xn) body) e1 ... en)`. -/
def call (bs : Bindings) (body : Value Unit) : Value Unit := .pair () (bs.lambda body) bs.values

/-- The list `((x1 e1) ... (xn en))`. -/
def clauses (bs : Bindings) : Value Unit := .ofList (bs.map fun b => .ofList [.atom b.1, b.2])

lemma clauses_cons (x : String) (e : Value Unit) (bs : Bindings) :
    clauses ((x, e) :: bs) = .pair () (.ofList [.atom x, e]) bs.clauses := rfl

/-- The expression `(letrec ((x1 e1) ... (xn en)) body)`. -/
def letrec (bs : Bindings) (body : Value Unit) : Value Unit :=
  .ofList [.atom "letrec", bs.clauses, body]

lemma findIn_eq_some_iff {bs : Bindings} (distinct : (bs.map Prod.fst).Nodup) {name : String}
    {v : Value Unit} : Frame.findIn (.atom name) bs.names bs.values = some v ↔ (name, v) ∈ bs := by
  induction bs with
  | nil => simp [names, values, Value.nil, Frame.findIn]
  | cons b bs ih =>
    obtain ⟨x, w⟩ := b
    obtain ⟨hnew, hothers⟩ := List.nodup_cons.mp distinct
    have hfind : Frame.findIn (.atom name) (names ((x, w) :: bs)) (values ((x, w) :: bs)) =
        if x = name then some w else Frame.findIn (.atom name) (names bs) (values bs) := by
      simp [names, values, Frame.findIn, Value.alike]
    rw [hfind, List.mem_cons, Prod.mk.injEq]
    by_cases hx : x = name
    · have habsent : (name, v) ∉ bs := by
        intro hmem
        exact hnew (List.mem_map.mpr ⟨(name, v), hmem, hx.symm⟩)
      rw [if_pos hx, Option.some.injEq]
      constructor
      · rintro rfl
        exact .inl ⟨hx.symm, rfl⟩
      · rintro (⟨-, rfl⟩ | hmem)
        · rfl
        · exact absurd hmem habsent
    · rw [if_neg hx, ih hothers]
      constructor
      · exact .inr
      · rintro (⟨rfl, -⟩ | hmem)
        · exact absurd rfl hx
        · exact hmem

lemma findIn_reverse {bs : Bindings} (distinct : (bs.map Prod.fst).Nodup) (name : String) :
    Frame.findIn (.atom name) (names bs.reverse) (values bs.reverse) =
      Frame.findIn (.atom name) bs.names bs.values := by
  have hreverse : (bs.reverse.map Prod.fst).Nodup := by
    rw [List.map_reverse]
    exact List.nodup_reverse.mpr distinct
  ext v
  rw [findIn_eq_some_iff hreverse, findIn_eq_some_iff distinct, List.mem_reverse]

end Bindings

/-- The frames that values in a state refer to are there, and so are those that an environment and
some expressions refer to. Frames are never removed, so whatever evaluation has made is
grounded. -/
structure State.Grounds (s : State Unit) (env : Env Unit) (exprs : List (Value Unit)) : Prop where
  frames : ∀ (n : Nat) (names values : Value Unit), s.frames[n]? = some (.filled names values) →
    values.Within (· < s.frames.size)
  env : EnvWithin (· < s.frames.size) env
  exprs : ∀ e ∈ exprs, e.Within (· < s.frames.size)

namespace Bindings

section Runs

variable (bs : Bindings) (body : Value Unit) (env : Env Unit) (s : State Unit)

/-- The frame of the `letrec` is passed by. -/
def detour : Detour where
  names := (· ∈ bs.map Prod.fst)
  left := fun _ => False
  right := (· = s.frames.size)

def closure : Value Unit := .closure () (bs.lambda body) bs.names body env

/-- The bindings of the `letrec` with those in `taken` evaluated, last first. -/
def binding (taken rest : Bindings) : Binding Unit :=
  ⟨taken.names, taken.values, rest.clauses, body, ⟨(), s.frames.size⟩ :: env, s.frames.size⟩

/-- Both runs are about to go on with the bindings in `rest`; the values on the left are given last
first. -/
structure Level (ρ : Nat → Nat → Prop) (ws : List (Value Unit)) (taken rest : Bindings) : Prop where
  names : bs.map Prod.fst = (taken.map Prod.fst).reverse ++ rest.map Prod.fst
  remaining : rest ⊆ bs
  values : List.Forall₂ (Value.Akin (bs.detour s) ρ) ws (taken.map Prod.snd)
  kept : ∀ n < s.frames.size, ρ n n

/-- Both runs evaluate the expression of one binding, or both evaluate the body. -/
inductive Follows : Thread Unit × State Unit → Thread Unit × State Unit → Prop where
  | clause {ρ : Nat → Nat → Prop} {ws : List (Value Unit)} {taken rest : Bindings} {x : String}
      {e : Value Unit} {c c' : Thread Unit × State Unit}
      (level : bs.Level s ρ ws taken ((x, e) :: rest))
      (abreast : Machine.Abreast (bs.detour s) ρ
        [.operand (ws ++ [bs.closure body env]) rest.values env .call]
        [.bind (.atom x) (binding body env s taken rest)] c c')
      (disciplined : Machine.Disciplined s.frames c') : Follows c c'
  | body {ρ : Nat → Nat → Prop} {c c' : Thread Unit × State Unit}
      (abreast : Machine.Abreast (bs.detour s) ρ [] [] c c') : Follows c c'

variable {bs body env s}

/-- The expression of a binding cannot tell whether the pending frame is there. -/
lemma admits_expr {ρ : Nat → Nat → Prop} {ws : List (Value Unit)} {taken rest : Bindings}
    (level : bs.Level s ρ ws taken rest) (independent : bs.Independent)
    (grounded : s.Grounds env (body :: bs.map Prod.snd)) {b : String × Value Unit} (hb : b ∈ rest) :
    (bs.detour s).Admits ρ env (⟨(), s.frames.size⟩ :: env) b.2 := by
  have hmem := level.remaining hb
  have hclear : b.2.Avoids (bs.detour s) := by
    intro name hname
    obtain ⟨b', hb', rfl⟩ := List.mem_map.mp hname
    exact independent.apart b' hb' b hmem
  have hwithin := grounded.exprs b.2 (.tail _ (List.mem_map_of_mem hmem))
  exact ⟨.of_within hwithin level.kept, .right hclear rfl (.of_within grounded.env level.kept)⟩

lemma nextOperand_nil {ws : List (Value Unit)} (hlength : bs.length = ws.length) (s₁ : State Unit) :
    Machine.nextOperand .none (ws ++ [bs.closure body env]) (values []) env .call [] s₁ =
      Machine.bounce body (⟨(), s₁.frames.size⟩ :: env) []
        { s₁ with frames := s₁.frames.push (.filled bs.names (.ofList ws.reverse)) } := by
  have hchain : State.chain (ws ++ [bs.closure body env]) .nil s₁ =
      (.pair () (bs.closure body env) (.ofList ws.reverse), s₁) := by
    rw [State.chain_unit, Value.foldl_pair_nil, List.reverse_append]
    rfl
  have hfits : bs.names.length = (Value.ofList ws.reverse).length := by
    rw [names, Value.length_ofList, Value.length_ofList, List.length_map, List.length_map,
      List.length_reverse, hlength]
  rw [values, List.map_nil, Value.ofList_nil, Machine.nextOperand_of_atEnd rfl, if_pos (by rfl),
    hchain, Machine.finish, closure]
  unfold Machine.apply Machine.extendEnv
  dsimp only
  rw [if_pos hfits]
  rfl

lemma nextBinding_nil {taken : Bindings} {s₁ : State Unit}
    (hpending : s₁.frames[s.frames.size]? = some .pending) :
    Machine.nextBinding .none (binding body env s taken []) [] s₁ =
      Machine.bounce body (⟨(), s.frames.size⟩ :: env) []
        (State.log (.frameFilled taken.names)
          { s₁ with frames := s₁.frames.setIfInBounds s.frames.size
                      (.filled taken.names taken.values) }) := by
  have hnext : (binding body env s taken []).next .none = .ok none := rfl
  rw [Machine.nextBinding_eq, hnext]
  dsimp only [binding]
  rw [State.fill_of_pending hpending]

lemma nextBinding_cons {x : String} (hx : Name.isInteger x = false) (e : Value Unit)
    (taken rest : Bindings) (s₁ : State Unit) :
    Machine.nextBinding .none (binding body env s taken ((x, e) :: rest)) [] s₁ =
      (⟨.enter e (⟨(), s.frames.size⟩ :: env),
        [.bind (.atom x) (binding body env s taken rest)]⟩, s₁) := by
  have hnext : (binding body env s taken ((x, e) :: rest)).next .none =
      .ok (some (.atom x, e, rest.clauses)) := by
    have hparts : Machine.bindingParts .none (.ofList [.atom x, e]) = .ok [.atom x, e] := rfl
    unfold Binding.next binding
    rw [clauses_cons]
    dsimp only
    rw [hparts]
    dsimp only
    rw [hx, if_neg Bool.false_ne_true]
  rw [Machine.nextBinding_eq, hnext]
  rfl

namespace Level

variable {ρ ρ' : Nat → Nat → Prop} {ws : List (Value Unit)} {taken : Bindings}

lemma names_eq (level : bs.Level s ρ ws taken []) :
    bs.map Prod.fst = taken.reverse.map Prod.fst := by
  rw [level.names, List.map_nil, List.append_nil, List.map_reverse]

lemma length_eq (level : bs.Level s ρ ws taken []) : bs.length = ws.length := by
  have hpaired := level.values.length_eq
  have hcount := congrArg List.length level.names_eq
  simp only [List.length_map, List.length_reverse] at hpaired hcount
  omega

lemma distinct (level : bs.Level s ρ ws taken []) (independent : bs.Independent) :
    (taken.map Prod.fst).Nodup := by
  have hreverse := independent.distinct
  rw [level.names_eq, List.map_reverse] at hreverse
  exact List.nodup_reverse.mp hreverse

/-- The frames at the end bind the same names to akin values, though in the opposite order. -/
lemma akin_frames (level : bs.Level s ρ ws taken []) (independent : bs.Independent)
    (hρ : ∀ n m, ρ n m → ρ' n m) :
    (Frame.filled bs.names (.ofList ws.reverse)).Akin (bs.detour s) ρ'
      (.filled taken.names taken.values) := by
  have hvalues : List.Forall₂ (Value.Akin (bs.detour s) ρ') ws.reverse
      (taken.reverse.map Prod.snd) := by
    rw [List.map_reverse, List.forall₂_reverse_iff]
    exact level.values.imp fun _ _ h => h.mono hρ
  refine .filled fun name => ?_
  rw [← findIn_reverse (level.distinct independent) name, Bindings.names, Bindings.names,
    level.names_eq]
  exact (Frame.Akin.of_values (.ofList hvalues) _).find name

lemma binds_no_other (level : bs.Level s ρ ws taken []) (independent : bs.Independent)
    {name : String} (hname : ¬ (bs.detour s).names name) :
    Frame.findIn (.atom name) taken.names taken.values = none := by
  rw [Option.eq_none_iff_forall_ne_some]
  intro v hv
  have hmem := (findIn_eq_some_iff (level.distinct independent)).mp hv
  refine hname ?_
  change name ∈ bs.map Prod.fst
  rw [level.names_eq]
  exact List.mem_map.mpr ⟨(name, v), List.mem_reverse.mpr hmem, rfl⟩

end Level

/-- All bindings are evaluated: the frame on the left is added, and the one on the right is
filled. -/
lemma follows_body {ρ : Nat → Nat → Prop} {ws : List (Value Unit)} {taken : Bindings}
    (level : bs.Level s ρ ws taken []) (independent : bs.Independent)
    (grounded : s.Grounds env (body :: bs.map Prod.snd)) {s₁ s₁' : State Unit}
    (hs : (bs.detour s).Meets ρ s₁ s₁') (hpending : s₁'.frames[s.frames.size]? = some .pending) :
    Follows bs body env s
      (Machine.nextOperand .none (ws ++ [bs.closure body env]) (values []) env .call [] s₁)
      (Machine.nextBinding .none (binding body env s taken []) [] s₁') := by
  let ρ' := WithPair ρ s₁.frames.size s.frames.size
  have hkept : ∀ n < s.frames.size, ρ' n n := fun n hn => .inl (level.kept n hn)
  have hbody : (bs.detour s).Admits ρ' (⟨(), s₁.frames.size⟩ :: env)
      (⟨(), s.frames.size⟩ :: env) body :=
    ⟨.of_within (grounded.exprs body List.mem_cons_self) hkept,
      .both (.inr ⟨rfl, rfl⟩) (.of_within grounded.env hkept)⟩
  have hframe := level.akin_frames independent fun n m => (Or.inl : ρ n m → ρ' n m)
  rw [nextOperand_nil level.length_eq, nextBinding_nil hpending]
  exact .body ⟨.bounce hbody, .bottom, hs.pair_up rfl hpending hframe
    (fun name hname => level.binds_no_other independent hname) rfl rfl hs.printed⟩

lemma follows_next {ρ : Nat → Nat → Prop} {ws : List (Value Unit)} {taken rest : Bindings}
    (level : bs.Level s ρ ws taken rest) (independent : bs.Independent)
    (grounded : s.Grounds env (body :: bs.map Prod.snd)) {s₁ s₁' : State Unit}
    (hs : (bs.detour s).Meets ρ s₁ s₁') (hpending : s₁'.frames[s.frames.size]? = some .pending)
    (disciplined : Machine.Disciplined s.frames
      (Machine.nextBinding .none (binding body env s taken rest) [] s₁')) :
    Follows bs body env s
      (Machine.nextOperand .none (ws ++ [bs.closure body env]) rest.values env .call [] s₁)
      (Machine.nextBinding .none (binding body env s taken rest) [] s₁') := by
  cases rest with
  | nil => exact follows_body level independent grounded hs hpending
  | cons b rest =>
    obtain ⟨x, e⟩ := b
    have he := admits_expr level independent grounded List.mem_cons_self
    have hproper := independent.proper _ (level.remaining List.mem_cons_self)
    rw [nextBinding_cons hproper] at disciplined ⊢
    exact .clause level ⟨.enter he, .bottom, hs⟩ disciplined

lemma follows_step (independent : bs.Independent)
    (grounded : s.Grounds env (body :: bs.map Prod.snd)) {c c' : Thread Unit × State Unit}
    (h : Follows bs body env s c c') :
    Follows bs body env s (Machine.step .none .inOrder c.1 c.2)
      (Machine.step .none .inOrder c'.1 c'.2) := by
  cases h with
  | body abreast =>
    obtain ⟨ρ', hnext⟩ := Machine.isParallel_abreast.step ⟨_, abreast⟩
    exact .body hnext
  | @clause ρ ws taken rest x e _ _ level abreast disciplined =>
    have hdisciplined : Machine.Disciplined s.frames (Machine.step .none .inOrder c'.1 c'.2) :=
      Machine.disciplined_reaches disciplined (.single (r := fun c c' => _ = c') rfl)
    rcases Machine.abreast_step abreast with ⟨v, v', hv, hc, hc'⟩ | ⟨ρ', hρ, hnext⟩
    · -- the expression is done, and the stacks that differ take over with akin values
      obtain ⟨thread, s₁⟩ := c
      obtain ⟨thread', s₁'⟩ := c'
      cases hc
      cases hc'
      have hlevel : bs.Level s ρ (v :: ws) ((x, v') :: taken) rest :=
        ⟨by simp [level.names], fun b hb => level.remaining (.tail _ hb), .cons hv level.values,
          level.kept⟩
      have hpending : s₁'.frames[s.frames.size]? = some .pending :=
        disciplined.pending s.frames.size List.mem_cons_self
      exact follows_next hlevel independent grounded abreast.states hpending hdisciplined
    · refine .clause ⟨level.names, level.remaining, ?_, fun n hn => hρ n n (level.kept n hn)⟩ hnext
        hdisciplined
      exact level.values.imp fun _ _ h => h.mono hρ

lemma isParallel_follows (independent : bs.Independent)
    (grounded : s.Grounds env (body :: bs.map Prod.snd)) :
    Machine.IsParallel (Follows bs body env s) where
  step := follows_step independent grounded
  outcome := by
    intro c c' h
    cases h with
    | clause _ abreast _ => exact abreast.outcome_eq (iff_of_false nofun nofun)
    | body abreast => exact abreast.outcome_eq Iff.rfl
  printed := by
    intro c c' h
    cases h with
    | clause _ abreast _ => exact abreast.states.printed
    | body abreast => exact abreast.states.printed

/-- The frames that there are at the beginning stand for themselves. -/
def Kept (s : State Unit) (n m : Nat) : Prop := n = m ∧ n < s.frames.size

/-- What a frame holds refers to frames that there are, so that it is akin to itself. -/
lemma akin_itself {D : Detour} {exprs : List (Value Unit)} (grounded : s.Grounds env exprs) {n : Nat}
    (hn : n < s.frames.size) : ∃ f, s.frames[n]? = some f ∧ f.Akin D (Kept s) f := by
  have hf := Array.getElem?_eq_getElem hn
  refine ⟨_, hf, ?_⟩
  cases hframe : s.frames[n] with
  | pending => exact .pending
  | filled names values =>
    have hwithin := grounded.frames n names values (hf.trans (congrArg some hframe))
    exact .of_values (.of_within hwithin fun k hk => ⟨rfl, hk⟩) names

lemma meets_start (grounded : s.Grounds env (body :: bs.map Prod.snd)) :
    (bs.detour s).Meets (Kept s) s (s.suspend bs.clauses body env).2 := by
  refine ⟨rfl, ?_, ?_, nofun, ?_⟩
  · rintro n _ ⟨rfl, hn⟩
    obtain ⟨f, hf, hakin⟩ := akin_itself grounded hn
    exact ⟨f, f, hf, (getElem?_push_of_lt hn).trans hf, hakin⟩
  · rintro n _ n' _ ⟨rfl, -⟩ ⟨rfl, -⟩ - -
    exact Iff.rfl
  · rintro _ rfl
    refine ⟨.pending, Array.getElem?_push_size, fun _ _ => rfl, ?_⟩
    rintro - n ⟨rfl, hn⟩
    exact Nat.lt_irrefl _ hn

lemma showSame_call (independent : bs.Independent) :
    Machine.ShowSame (Thread.start (bs.call body) env, s)
      (Machine.nextOperand .none [bs.closure body env] bs.values env .call [] s) := by
  have hparameters : Machine.badParameter? bs.names.elements = none := by
    rw [names, Value.elements_ofList, Machine.badParameter?, List.find?_eq_none]
    intro formal hformal
    rw [List.map_map] at hformal
    obtain ⟨b, hb, rfl⟩ := List.mem_map.mp hformal
    simp [Value.isAtom, Value.isInteger, independent.proper b hb]
  have hclosure : Machine.evaluate .none .inOrder (bs.lambda body) env
      [.operand [] bs.values env .call] s =
        (⟨.give (bs.closure body env), [.operand [] bs.values env .call]⟩, s) := by
    have hlambda : Machine.evaluate .none .inOrder (bs.lambda body) env
        [.operand [] bs.values env .call] s =
          Machine.lambda .none (.ofList [bs.names, body]) bs.names body env
            [.operand [] bs.values env .call] s := rfl
    rw [hlambda, Machine.lambda, hparameters]
    dsimp only
    rw [names, Value.ending_ofList]
    rfl
  have hprinted : (Machine.nextOperand .none [bs.closure body env] bs.values env .call []
      s).2.printed = s.printed := by
    cases bs with
    | nil => rfl
    | cons b bs => rfl
  have hfirst : Machine.ShowSame (Thread.start (bs.call body) env, s)
      (⟨.enter (bs.lambda body) env, [.operand [] bs.values env .call]⟩, s) := .of_step rfl rfl rfl
  exact (hfirst.trans (.of_step rfl hclosure rfl)).trans (.of_step rfl rfl hprinted)

lemma showSame_letrec (independent : bs.Independent) :
    Machine.ShowSame (Thread.start (bs.letrec body) env, s)
      (Machine.nextBinding .none (binding body env s [] bs) []
        (s.suspend bs.clauses body env).2) := by
  refine .of_step rfl rfl ?_
  cases bs with
  | nil =>
    rw [nextBinding_nil Array.getElem?_push_size]
    rfl
  | cons b bs =>
    rw [nextBinding_cons (independent.proper b List.mem_cons_self)]
    rfl

end Runs

end Bindings

namespace Evaluation

/-- Evaluating in order and without limits ends, with a value of the printed form or with the fault,
and has printed the lines. -/
def Ends (e : Value Unit) (env : Env Unit) (s : State Unit)
    (shown : Except Fault (Except Fault String)) (lines : Array String) : Prop :=
  ∃ fuel outcome s', evaluate fuel .none .inOrder e env s = some (outcome, .inOrder, s') ∧
    outcome.map (Value.print .none) = shown ∧ s'.printed = lines

lemma ends_iff (e : Value Unit) (env : Env Unit) (s : State Unit)
    (shown : Except Fault (Except Fault String)) (lines : Array String) :
    Ends e env s shown lines ↔ Machine.Ends (Thread.start e env, s) shown lines := by
  simp only [Ends, Machine.Ends, evaluate_inOrder_iff_run]

end Evaluation

/-- Binding distinct names by `letrec` to expressions in which none of them occurs is binding them
by a call of a lambda expression: one ends if and only if the other does, with a value of the same
printed form or with the same fault, and the same lines are printed even if there is no end. -/
theorem letrec_agrees_with_call {bs : Bindings} (independent : bs.Independent) {body : Value Unit}
    {env : Env Unit} {s : State Unit} (grounded : s.Grounds env (body :: bs.map Prod.snd)) :
    (∀ shown lines, Evaluation.Ends (bs.letrec body) env s shown lines ↔
      Evaluation.Ends (bs.call body) env s shown lines) ∧
    ∀ lines, Machine.Prints (Thread.start (bs.letrec body) env, s) lines ↔
      Machine.Prints (Thread.start (bs.call body) env, s) lines := by
  have hlevel : bs.Level s (Bindings.Kept s) [] [] bs :=
    ⟨rfl, List.Subset.refl bs, .nil, fun n hn => ⟨rfl, hn⟩⟩
  have hdisciplined : Machine.Disciplined s.frames (Machine.nextBinding .none
      (Bindings.binding body env s [] bs) [] (s.suspend bs.clauses body env).2) :=
    Machine.disciplined_reaches (Machine.disciplined_start (bs.letrec body) env s)
      (.single (r := fun c c' => Machine.step .none .inOrder c.1 c.2 = c') rfl)
  have hfollows := Bindings.follows_next hlevel independent grounded
    (Bindings.meets_start grounded) Array.getElem?_push_size hdisciplined
  have hsame : Machine.ShowSame (Thread.start (bs.letrec body) env, s)
      (Thread.start (bs.call body) env, s) :=
    (Bindings.showSame_letrec independent).trans
      (((Bindings.isParallel_follows independent grounded).showSame hfollows).symm.trans
        (Bindings.showSame_call independent).symm)
  refine ⟨fun shown lines => ?_, hsame.prints⟩
  rw [Evaluation.ends_iff, Evaluation.ends_iff]
  exact hsame.ends shown lines

/-- A closure that is made with the pending frame in its environment, beside a line that is
printed; the frame of an outer `letrec` is pending too. -/
theorem letrec_agrees_for_closure_and_line :
    let bs : Bindings :=
      [("f", .ofSExpr (.ofList [.atom "lambda", .ofList [.atom "y"],
        .ofList [.atom "cons", .atom "y", .atom "t"]])),
       ("x", .ofSExpr (.ofList [.atom "print", .atom "5"]))]
    let body : Value Unit := .ofSExpr (.ofList [.atom "f", .atom "x"])
    let known : Value Unit := .ofSExpr (.ofList [.atom "cons", .atom "print", .atom "t"])
    let s : State Unit := ⟨#[.filled known known, .pending], (), #[], #[]⟩
    let env : Env Unit := [⟨(), 1⟩, ⟨(), 0⟩]
    bs.Independent ∧ s.Grounds env (body :: bs.map Prod.snd) ∧
      Evaluation.Ends (bs.letrec body) env s (.ok (.ok "(5 . t)")) #["5"] := by
  intro bs body known s env
  have independent : bs.Independent := by
    refine ⟨by decide +kernel, by decide +kernel, ?_⟩
    simp [bs, SExpr.ofList, SExpr.ofReversed, SExpr.nil, Value.Mentions, Value.nil]
  have grounded : s.Grounds env (body :: bs.map Prod.snd) := by
    refine ⟨?_, by simp [EnvWithin, env, s], ?_⟩
    · intro n names values hframe
      have hn : n = 0 ∨ n = 1 := by
        have hlt : n < 2 := lt_size_of_getElem? hframe
        omega
      rcases hn with rfl | rfl
      · cases hframe
        exact .ofSExpr _
      · cases hframe
    · rintro e (_ | ⟨_, _ | ⟨_, _ | ⟨_, ⟨⟩⟩⟩⟩)
      · exact .ofSExpr _
      · exact .ofSExpr _
      · exact .ofSExpr _
  have hcall : (Evaluation.evaluate 40 .none .inOrder (bs.call body) env s).map
      (fun result => (result.1.map (Value.print .none), result.2.1, result.2.2.printed)) =
        some (.ok (.ok "(5 . t)"), .inOrder, #["5"]) := by decide +kernel
  obtain ⟨⟨outcome, strategy, s'⟩, hevaluate, hresult⟩ := Option.map_eq_some_iff.mp hcall
  obtain ⟨hshown, hrest⟩ := Prod.mk.inj hresult
  obtain ⟨hstrategy, hlines⟩ := Prod.mk.inj hrest
  cases hstrategy
  exact ⟨independent, grounded, ((letrec_agrees_with_call independent grounded).1 _ _).mpr
    ⟨40, outcome, s', hevaluate, hshown, hlines⟩⟩

end Evlis
