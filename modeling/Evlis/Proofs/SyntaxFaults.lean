import Evlis.Proofs.Grammar

/-!
# Which fault of a text is reported

Reading pulls one token at a time and stops as soon as it can tell what the text is, so what it
reports depends on the tokens in front of the first character that belongs to none: they begin with
`)`, or a complete expression is followed by another token, or they are too few. Every list of
tokens has exactly one `Outline`, and the outline and the stray character decide what is reported.
Main statement: `read_reports_outline`.
-/

namespace Evlis

open SExpr

/-- The tokens of a sequence of expressions, with their trees. -/
inductive Forms : (tokens : List Token) → (trees : List SExpr) → Prop where
  | none : Forms [] []
  | atom {name : String} {tokens : List Token} {trees : List SExpr}
      (others : Forms tokens trees) : Forms (.atom name :: tokens) (.atom name :: trees)
  | list {inner tokens : List Token} {elements trees : List SExpr} (within : Forms inner elements)
      (others : Forms tokens trees) :
      Forms (.opening :: (inner ++ .closing :: tokens)) (.ofList elements :: trees)

/-- What a list of tokens amounts to, if a single expression is wanted. -/
inductive Outline where
  /-- The first token is `)`. -/
  | closing
  /-- A complete expression, and then a further token. -/
  | followed (t : Token)
  | empty
  /-- The beginning of an expression whose end is missing. -/
  | unclosed
  | complete (tree : SExpr)

namespace Outline

inductive Fits : Outline → List Token → Prop where
  | closing (rest : List Token) : Fits .closing (.closing :: rest)
  | followed {form : List Token} {tree : SExpr} (whole : Forms form [tree]) (t : Token)
      (rest : List Token) : Fits (.followed t) (form ++ t :: rest)
  | empty : Fits .empty []
  | unclosed {tokens missing : List Token} {tree : SExpr} (begun : tokens ≠ [])
      (short : missing ≠ []) (whole : Forms (tokens ++ missing) [tree]) : Fits .unclosed tokens
  | complete {tokens : List Token} {tree : SExpr} (whole : Forms tokens [tree]) :
      Fits (.complete tree) tokens

/-- What is reported, and what is read, where a stray character may stand behind the tokens. -/
def report (position : Nat) (stray : Option Char) (outline : Outline) : Except String SExpr :=
  match outline, stray with
  | .closing, _ => .error "Unexpected ')'"
  | .followed t, _ => .error ("Unexpected " ++ Text.quoted t.text ++ " after end of program")
  | _, some c =>
    .error ("Unexpected char at " ++ Nat.repr position ++ ": " ++ Text.quoted (String.singleton c))
  | .empty, none => .error "Empty program"
  | .unclosed, none => .error "Unmatched '('"
  | .complete tree, none => .ok tree

/-- Tokens end an open list, or they are the beginning of a sequence of expressions. -/
lemma ends_or_begins (tokens : List Token) :
    (∃ inner elements rest, tokens = inner ++ .closing :: rest ∧ Forms inner elements) ∨
      ∃ missing trees, Forms (tokens ++ missing) trees := by
  induction hn : tokens.length using Nat.strong_induction_on generalizing tokens with
  | _ n ih =>
    subst hn
    cases tokens with
    | nil => exact .inr ⟨[], [], .none⟩
    | cons t tokens =>
      cases t with
      | closing => exact .inl ⟨[], [], tokens, rfl, .none⟩
      | atom name =>
        rcases ih _ (Nat.lt_succ_self _) tokens rfl with
          ⟨inner, elements, rest, rfl, h⟩ | ⟨missing, trees, h⟩
        · exact .inl ⟨.atom name :: inner, _, rest, rfl, .atom h⟩
        · exact .inr ⟨missing, _, .atom h⟩
      | opening =>
        rcases ih _ (Nat.lt_succ_self _) tokens rfl with
          ⟨inner, elements, rest, rfl, h⟩ | ⟨missing, trees, h⟩
        · -- The list ends, and the same question arises behind it.
          have hlt : rest.length <
              (.opening :: (inner ++ .closing :: rest) : List Token).length := by
            simp only [List.length_cons, List.length_append]
            omega
          rcases ih _ hlt rest rfl with ⟨inner', elements', rest', rfl, h'⟩ | ⟨missing, trees, h'⟩
          · exact .inl ⟨.opening :: (inner ++ .closing :: inner'), _, rest', by simp, .list h h'⟩
          · refine .inr ⟨missing, .ofList elements :: trees, ?_⟩
            simpa using Forms.list h h'
        · refine .inr ⟨missing ++ [.closing], [.ofList trees], ?_⟩
          simpa using Forms.list h .none

lemma exists_fits_of_form {form : List Token} {tree : SExpr} (whole : Forms form [tree])
    (rest : List Token) : ∃ outline : Outline, outline.Fits (form ++ rest) := by
  cases rest with
  | nil =>
    rw [List.append_nil]
    exact ⟨_, .complete whole⟩
  | cons t rest => exact ⟨_, .followed whole t rest⟩

lemma exists_fits (tokens : List Token) : ∃ outline : Outline, outline.Fits tokens := by
  cases tokens with
  | nil => exact ⟨_, .empty⟩
  | cons t tokens =>
    cases t with
    | closing => exact ⟨_, .closing tokens⟩
    | atom name => exact exists_fits_of_form (.atom .none) tokens
    | opening =>
      rcases ends_or_begins tokens with ⟨inner, elements, rest, rfl, h⟩ | ⟨missing, trees, h⟩
      · have hform := exists_fits_of_form (.list h .none) rest
        simpa using hform
      · have hwhole : Forms (.opening :: tokens ++ (missing ++ [.closing])) [.ofList trees] := by
          simpa using Forms.list h .none
        exact ⟨_, .unclosed (by simp) (by simp) hwhole⟩

/-- What an expression that has ended amounts to, with the tokens behind it. -/
def behind (tree : SExpr) : List Token → Outline
  | [] => .complete tree
  | t :: _ => .followed t

/-- The outline of tokens behind unfinished lists, innermost first, each with its elements last
first. -/
def within (unfinished : List (List SExpr)) : List Token → Outline
  | [] => if unfinished.isEmpty then .empty else .unclosed
  | .opening :: tokens => within ([] :: unfinished) tokens
  | .atom name :: tokens =>
    match TokenStream.place (.atom name) unfinished with
    | .inl tree => behind tree tokens
    | .inr unfinished => within unfinished tokens
  | .closing :: tokens =>
    match unfinished with
    | [] => .closing
    | elements :: outer =>
      match TokenStream.place (.ofReversed elements .nil) outer with
      | .inl tree => behind tree tokens
      | .inr unfinished => within unfinished tokens

/-- Expressions in the middle of a list become elements of it. -/
lemma within_forms {tokens : List Token} {trees : List SExpr} (h : Forms tokens trees) :
    ∀ elements outer rest, within (elements :: outer) (tokens ++ rest) =
      within ((trees.reverse ++ elements) :: outer) rest := by
  induction h with
  | none =>
    intro elements outer rest
    rfl
  | @atom name tokens trees _ ih =>
    intro elements outer rest
    rw [List.cons_append, within, TokenStream.place]
    simp [ih]
  | @list inner tokens items trees _ _ ihInner ih =>
    intro elements outer rest
    have hinner := ihInner [] (elements :: outer) (.closing :: (tokens ++ rest))
    rw [List.cons_append, within, List.append_assoc, List.cons_append, hinner, within,
      TokenStream.place]
    simp [ih, SExpr.ofList]

/-- A complete expression takes its own tokens and no more. -/
lemma within_form {form : List Token} {tree : SExpr} (h : Forms form [tree]) (rest : List Token) :
    within [] (form ++ rest) = behind tree rest := by
  cases h with
  | atom others =>
    cases others
    rfl
  | @list inner _ elements _ inside others =>
    cases others
    have hinner := within_forms inside [] [] (.closing :: rest)
    rw [List.cons_append, within, List.append_assoc, List.cons_append, List.nil_append, hinner,
      List.append_nil]
    rfl

/-- What an outline becomes when further tokens are added. -/
def extend (more : List Token) : Outline → Outline
  | .complete tree => behind tree more
  | outline => outline

lemma behind_append (tree : SExpr) (tokens more : List Token) :
    behind tree (tokens ++ more) = (behind tree tokens).extend more := by
  cases tokens <;> rfl

/-- Only where tokens are missing can further ones make more than the last difference. -/
lemma within_append {unfinished : List (List SExpr)} {tokens : List Token} (more : List Token)
    (hempty : within unfinished tokens ≠ .empty)
    (hunclosed : within unfinished tokens ≠ .unclosed) :
    within unfinished (tokens ++ more) = (within unfinished tokens).extend more := by
  fun_induction within unfinished tokens with
  | case1 unfinished h => exact absurd rfl hempty
  | case2 unfinished h => exact absurd rfl hunclosed
  | case3 unfinished tokens ih => exact ih hempty hunclosed
  | case4 unfinished name tokens tree hplace =>
    rw [List.cons_append, within, hplace]
    exact behind_append tree tokens more
  | case5 unfinished name tokens unfinished' hplace ih =>
    rw [List.cons_append, within, hplace]
    exact ih hempty hunclosed
  | case6 => rfl
  | case7 tokens elements outer tree hplace =>
    rw [List.cons_append, within, hplace]
    exact behind_append tree tokens more
  | case8 tokens elements outer unfinished' hplace ih =>
    rw [List.cons_append, within, hplace]
    exact ih hempty hunclosed

lemma eq_nil_of_within {unfinished : List (List SExpr)} {tokens : List Token}
    (h : within unfinished tokens = .empty) : unfinished = [] ∧ tokens = [] := by
  fun_induction within unfinished tokens with
  | case1 unfinished hnil => exact ⟨List.isEmpty_iff.mp hnil, rfl⟩
  | case3 unfinished tokens ih => cases (ih h).1
  | case4 unfinished name tokens tree hplace => cases tokens <;> cases h
  | case5 unfinished name tokens unfinished' hplace ih =>
    obtain ⟨rfl, -⟩ := ih h
    cases unfinished <;> cases hplace
  | case7 tokens elements outer tree hplace => cases tokens <;> cases h
  | case8 tokens elements outer unfinished' hplace ih =>
    obtain ⟨rfl, -⟩ := ih h
    cases outer <;> cases hplace
  | _ => cases h

/-- An outline that fits is the one that is found token by token. -/
theorem within_of_fits {outline : Outline} {tokens : List Token} (h : outline.Fits tokens) :
    within [] tokens = outline := by
  cases h with
  | closing rest => rfl
  | followed whole t rest => exact within_form whole (t :: rest)
  | empty => rfl
  | @unclosed tokens missing tree begun short whole =>
    have hwhole : within [] (tokens ++ missing) = .complete tree := by
      have hform := within_form whole []
      rwa [List.append_nil] at hform
    by_contra hunclosed
    have hempty : within [] tokens ≠ .empty := fun h => begun (eq_nil_of_within h).2
    rw [within_append missing hempty hunclosed] at hwhole
    obtain ⟨t, missing, rfl⟩ := List.exists_cons_of_ne_nil short
    cases hbegun : within [] tokens with
    | complete tree' => rw [hbegun] at hwhole; cases hwhole
    | empty => exact hempty hbegun
    | unclosed => exact hunclosed hbegun
    | _ => rw [hbegun] at hwhole; cases hwhole
  | complete whole =>
    have hform := within_form whole []
    rwa [List.append_nil] at hform

/-- What is read where the tokens end at the end of the text, or because of a fault. -/
def verdict (stop : Option SyntaxFault) (outline : Outline) : Except Fault SExpr :=
  match outline, stop with
  | .closing, _ => .error (.unreadable .unexpectedClosing)
  | .followed t, _ => .error (.unreadable (.trailing t.text))
  | _, some fault => .error (.unreadable fault)
  | .empty, none => .error (.unreadable .emptyProgram)
  | .unclosed, none => .error (.unreadable .unmatchedOpening)
  | .complete tree, none => .ok tree

lemma mapError_verdict (position : Nat) (stray : Option Char) (outline : Outline) :
    (outline.verdict (stray.map (.unexpectedChar position))).mapError Fault.message =
      outline.report position stray := by
  cases outline <;> cases stray <;> rfl

end Outline

namespace Source

variable {s after : Source}

lemma tokensAfter_eq (found : List Token) (s : Source) :
    tokensAfter found s = (found.reverse ++ (tokens s).1, (tokens s).2) := by
  induction hn : s.rest.length using Nat.strong_induction_on generalizing s found with
  | _ n ih =>
    subst hn
    rw [tokens, tokensAfter, tokensAfter]
    split
    · simp
    · simp
    · rename_i t after hnext
      rw [ih _ (length_lt_of_next hnext) (t :: found) after rfl,
        ih _ (length_lt_of_next hnext) [t] after rfl]
      simp

lemma tokens_of_finish (h : s.next = .finish) : s.tokens = ([], none) := by
  rw [tokens, tokensAfter]
  split <;> simp_all

lemma tokens_of_stray {position : Nat} {c : Char} (h : s.next = .stray position c) :
    s.tokens = ([], some (.unexpectedChar position c)) := by
  rw [tokens, tokensAfter]
  split <;> simp_all

lemma tokens_of_token {t : Token} (h : s.next = .token t after) :
    s.tokens = (t :: after.tokens.1, after.tokens.2) := by
  rw [tokens, tokensAfter]
  split
  · simp_all
  · simp_all
  · rename_i t' after' hnext
    rw [h] at hnext
    cases hnext
    exact tokensAfter_eq [t] after

/-- A class of characters goes no further than to a character outside it. -/
lemma span_append {p : Char → Bool} {back : List Char} (stops : ∀ c ∈ back.head?, p c = false)
    (front : List Char) :
    (front ++ back).takeWhile p = front.takeWhile p ∧
      (front ++ back).dropWhile p = front.dropWhile p ++ back := by
  induction front with
  | nil =>
    cases back with
    | nil => exact ⟨rfl, rfl⟩
    | cons c back => simp [stops c rfl]
  | cons c front ih =>
    rw [List.cons_append, List.takeWhile_cons, List.takeWhile_cons, List.dropWhile_cons,
      List.dropWhile_cons, ih.1, ih.2]
    cases p c <;> exact ⟨rfl, rfl⟩

/-- A token leaves the rest of the text, and counts the characters in front of it. -/
lemma drop_of_head {t : Token} (h : s.head = .token t after) :
    (∀ c ∈ after.rest, c ∈ s.rest) ∧
      after.position + after.rest.length = s.position + s.rest.length := by
  obtain ⟨position, text⟩ := s
  cases text with
  | nil => cases h
  | cons c text =>
    have hlength := congrArg List.length
      (List.takeWhile_append_dropWhile (p := Token.isNameChar) (l := text))
    rw [List.length_append] at hlength
    rw [head] at h
    dsimp only at h ⊢
    split at h
    · cases h
      exact ⟨fun d hd => by simp [hd], by simp only [List.length_cons]; omega⟩
    · split at h
      · cases h
        exact ⟨fun d hd => by simp [hd], by simp only [List.length_cons]; omega⟩
      · split at h
        · cases h
          refine ⟨fun d hd => ?_, by simp only [List.length_cons]; omega⟩
          exact List.mem_cons_of_mem c (List.dropWhile_subset _ hd)
        · cases h

lemma drop_of_next {t : Token} (h : s.next = .token t after) :
    (∀ c ∈ after.rest, c ∈ s.rest) ∧
      after.position + after.rest.length = s.position + s.rest.length := by
  obtain ⟨hmem, hposition⟩ := drop_of_head h
  have hlength := congrArg List.length
    (List.takeWhile_append_dropWhile (p := Token.isSpace) (l := s.rest))
  rw [List.length_append] at hlength
  refine ⟨fun c hc => List.dropWhile_subset _ (hmem c hc), ?_⟩
  rw [hposition, skipSpace]
  dsimp only
  omega

section Stray

variable {front back : List Char} (legal : ∀ c ∈ front, Token.IsLegal c)
  (stops : ∀ c ∈ back.head?, ¬ Token.IsLegal c) (position : Nat)

include stops in
lemma skipSpace_append : (⟨position, front ++ back⟩ : Source).skipSpace =
    ⟨(⟨position, front⟩ : Source).skipSpace.position,
      (⟨position, front⟩ : Source).skipSpace.rest ++ back⟩ := by
  have hspace : ∀ c ∈ back.head?, Token.isSpace c = false := by
    intro c hc
    rw [Bool.eq_false_iff]
    exact fun h => stops c hc (.inl h)
  simp only [skipSpace, span_append hspace front]

include stops in
lemma head_append {t : Token} (h : (⟨position, front⟩ : Source).head = .token t after) :
    (⟨position, front ++ back⟩ : Source).head =
      .token t ⟨after.position, after.rest ++ back⟩ := by
  have hname : ∀ c ∈ back.head?, Token.isNameChar c = false := by
    intro c hc
    rw [Bool.eq_false_iff]
    exact fun h => stops c hc (.inr (.inr (.inr h)))
  cases front with
  | nil => cases h
  | cons c front =>
    rw [head] at h ⊢
    dsimp only [List.cons_append] at h ⊢
    rw [(span_append hname front).1, (span_append hname front).2]
    split at h
    · rename_i hc
      cases h
      rw [if_pos hc]
    · rename_i hopening
      rw [if_neg hopening]
      split at h
      · rename_i hc
        cases h
        rw [if_pos hc]
      · rename_i hclosing
        rw [if_neg hclosing]
        split at h
        · rename_i hc
          cases h
          rw [if_pos hc]
        · cases h

include stops in
lemma head_stray : (⟨position, back⟩ : Source).head =
    match back.head? with
    | none => .finish
    | some c => .stray position c := by
  cases back with
  | nil => rfl
  | cons c back =>
    have hc := stops c rfl
    simp only [Token.IsLegal, not_or] at hc
    simp [head, hc.2.1, hc.2.2.1, hc.2.2.2]

include legal in
lemma next_ne_stray (place : Nat) (c : Char) :
    (⟨position, front⟩ : Source).next ≠ .stray place c := by
  intro h
  rw [next, head] at h
  split at h
  · cases h
  · rename_i d rest hrest
    have hdrop : front.dropWhile Token.isSpace = d :: rest := hrest
    have hlegal : Token.IsLegal d := by
      refine legal d (List.dropWhile_subset Token.isSpace ?_)
      rw [hdrop]
      exact List.mem_cons_self
    have hspace : Token.isSpace d = false := by
      have hstop := List.head?_dropWhile_not Token.isSpace front
      rwa [hdrop] at hstop
    rcases hlegal with hd | rfl | rfl | hd
    · rw [hspace] at hd
      cases hd
    · cases h
    · cases h
    · have hopening : d ≠ '(' := by rintro rfl; exact absurd hd (by decide)
      have hclosing : d ≠ ')' := by rintro rfl; exact absurd hd (by decide)
      rw [if_neg hopening, if_neg hclosing, if_pos hd] at h
      cases h

include legal stops in
/-- The tokens of a text are those in front of its first stray character. -/
theorem tokens_append : tokens ⟨position, front ++ back⟩ =
    ((tokens ⟨position, front⟩).1,
      back.head?.map (.unexpectedChar (position + front.length))) := by
  induction hn : front.length using Nat.strong_induction_on generalizing front position with
  | _ n ih =>
    subst hn
    cases hnext : (⟨position, front⟩ : Source).next with
    | finish =>
      have hblank : Blank front := next_eq_finish_iff.mp hnext
      have hskip : (⟨position, front⟩ : Source).skipSpace = ⟨position + front.length, []⟩ := by
        rw [skipSpace, hblank.dropWhile, List.takeWhile_eq_self_iff.mpr hblank]
      have hfound : (⟨position, front ++ back⟩ : Source).next =
          (⟨position + front.length, back⟩ : Source).head := by
        rw [next, skipSpace_append stops, hskip, List.nil_append]
      rw [head_stray stops] at hfound
      rw [tokens_of_finish hnext]
      cases back with
      | nil => exact tokens_of_finish hfound
      | cons c back => exact tokens_of_stray hfound
    | stray place c => exact absurd hnext (next_ne_stray legal position place c)
    | token t after =>
      obtain ⟨hmem, hposition⟩ := drop_of_next hnext
      have hfound : (⟨position, front ++ back⟩ : Source).next =
          .token t ⟨after.position, after.rest ++ back⟩ := by
        rw [next, skipSpace_append stops]
        exact head_append stops _ hnext
      have hafter := ih _ (length_lt_of_next hnext) (fun c hc => legal c (hmem c hc))
        after.position rfl
      rw [tokens_of_token hnext, tokens_of_token hfound, hafter, hposition]

end Stray

end Source

/-! ## Reading finds the outline -/

/-- Lists are nested no deeper than the limit anywhere in the tokens, `depth` lists being open in
front of them. -/
def Nested (limit : Option Nat) (depth : Nat) (tokens : List Token) : Prop :=
  ∀ n ≤ tokens.length,
    Shallow limit (depth + (tokens.take n).count .opening - (tokens.take n).count .closing)

instance (limit : Option Nat) (depth : Nat) (tokens : List Token) :
    Decidable (Nested limit depth tokens) :=
  Nat.decidableBallLE _ _

namespace Nested

variable {limit : Option Nat} {depth : Nat} {tokens : List Token}

lemma atom {name : String} (h : Nested limit depth (.atom name :: tokens)) :
    Nested limit depth tokens := by
  intro n hn
  have hfront := h (n + 1) (Nat.succ_le_succ hn)
  simpa using hfront

lemma opening (h : Nested limit depth (.opening :: tokens)) : Nested limit (depth + 1) tokens := by
  intro n hn
  have hfront := h (n + 1) (Nat.succ_le_succ hn)
  rw [List.take_succ_cons, List.count_cons_self,
    List.count_cons_of_ne (by decide : Token.opening ≠ .closing)] at hfront
  exact hfront.mono (by omega)

lemma closing (h : Nested limit (depth + 1) (.closing :: tokens)) : Nested limit depth tokens := by
  intro n hn
  have hfront := h (n + 1) (Nat.succ_le_succ hn)
  rw [List.take_succ_cons, List.count_cons_self,
    List.count_cons_of_ne (by decide : Token.closing ≠ .opening)] at hfront
  exact hfront.mono (by omega)

lemma shallow_opening (h : Nested limit depth (.opening :: tokens)) :
    Shallow limit (depth + 1) := by
  have hfront := h 1 (Nat.succ_le_succ (Nat.zero_le _))
  simpa using hfront

end Nested

namespace TokenStream

variable {limit : Option Nat} {unfinished : List (List SExpr)} {source after : Source}

/-- What reading makes of the first expression and of what stands behind it. -/
def conclude (r : Except Fault (Option SExpr) × TokenStream) : Except Fault SExpr :=
  match r with
  | (.error .tooDeep, _) => .error (.unreadable .tooDeep)
  | (.error fault, _) => .error fault
  | (.ok none, _) => .error (.unreadable .emptyProgram)
  | (.ok (some e), rest) =>
    match rest.peek.1 with
    | .error cause => .error (.unreadable cause)
    | .ok (some t) => .error (.unreadable (.trailing t.text))
    | .ok none => .ok e

lemma read_eq_conclude (limit : Option Nat) (text : String) :
    read limit text = conclude ((ofString text).parse limit) := rfl

lemma conclude_ok (tree : SExpr) (source : Source) :
    conclude (.ok (some tree), ⟨source, none⟩) =
      (Outline.behind tree source.tokens.1).verdict source.tokens.2 := by
  cases hnext : source.next with
  | finish =>
    rw [Source.tokens_of_finish hnext]
    simp [conclude, peek, pull, hnext, Outline.behind, Outline.verdict]
  | stray position c =>
    rw [Source.tokens_of_stray hnext]
    simp [conclude, peek, pull, hnext, Outline.behind, Outline.verdict]
  | token t after =>
    rw [Source.tokens_of_token hnext]
    simp [conclude, peek, pull, hnext, Outline.behind, Outline.verdict]

lemma conclude_finish (h : source.next = .finish) :
    conclude (parseWithin limit unfinished ⟨source, none⟩) =
      (Outline.within unfinished []).verdict none := by
  have hpeek : (⟨source, none⟩ : TokenStream).peek = (.ok none, ⟨source.exhausted, none⟩) := by
    simp [peek, pull, h]
  rw [parseWithin]
  split <;> rename_i hfound <;> rw [hpeek] at hfound <;> cases hfound
  cases unfinished <;> rfl

lemma conclude_stray {position : Nat} {c : Char} (h : source.next = .stray position c) :
    conclude (parseWithin limit unfinished ⟨source, none⟩) =
      (Outline.within unfinished []).verdict (some (.unexpectedChar position c)) := by
  have hpeek : (⟨source, none⟩ : TokenStream).peek =
      (.error (.unexpectedChar position c), ⟨source.exhausted, none⟩) := by
    simp [peek, pull, h]
  rw [parseWithin]
  split <;> rename_i hfound <;> rw [hpeek] at hfound <;> cases hfound
  cases unfinished <;> rfl

lemma conclude_closing (h : source.next = .token .closing after) :
    conclude (parseWithin limit [] ⟨source, none⟩) = .error (.unreadable .unexpectedClosing) := by
  rw [parseWithin]
  split <;> rename_i hfound <;> rw [peek_of_next h] at hfound <;> cases hfound
  rfl

/-- Reading behind unfinished lists comes to the outline of the tokens that are left. -/
theorem conclude_parseWithin (limit : Option Nat) (unfinished : List (List SExpr)) (source : Source)
    (nested : Nested limit unfinished.length source.tokens.1) :
    conclude (parseWithin limit unfinished ⟨source, none⟩) =
      (Outline.within unfinished source.tokens.1).verdict source.tokens.2 := by
  induction hn : source.rest.length using Nat.strong_induction_on
    generalizing source unfinished with
  | _ n ih =>
    subst hn
    cases hnext : source.next with
    | finish =>
      rw [Source.tokens_of_finish hnext]
      exact conclude_finish hnext
    | stray position c =>
      rw [Source.tokens_of_stray hnext]
      exact conclude_stray hnext
    | token t after =>
      have hshorter := Source.length_lt_of_next hnext
      rw [Source.tokens_of_token hnext] at nested ⊢
      cases t with
      | atom name =>
        rw [parseWithin_atom hnext, Outline.within]
        cases hplace : place (.atom name) unfinished with
        | inl tree => exact conclude_ok tree after
        | inr unfinished' =>
          refine ih _ hshorter unfinished' after ?_ rfl
          rw [length_of_place_inr hplace]
          exact nested.atom
      | opening =>
        rw [parseWithin_opening hnext, not_atLimit nested.shallow_opening,
          if_neg Bool.false_ne_true, Outline.within]
        exact ih _ hshorter ([] :: unfinished) after nested.opening rfl
      | closing =>
        cases unfinished with
        | nil => exact conclude_closing hnext
        | cons elements outer =>
          rw [parseWithin_closing hnext, Outline.within]
          cases hplace : place (.ofReversed elements .nil) outer with
          | inl tree => exact conclude_ok tree after
          | inr unfinished' =>
            refine ih _ hshorter unfinished' after ?_ rfl
            rw [length_of_place_inr hplace]
            exact nested.closing

end TokenStream

/-- Let the legal characters of a text be those in front of its first stray one. Their tokens have
exactly one outline. It and the stray character decide what is read or reported: a `)` in front,
then a token behind a complete expression, then the stray character, then what is missing. -/
theorem read_reports_outline (limit : Option Nat) (text : String) :
    let legal := text.toList.takeWhile fun c => Token.IsLegal c
    let stray := (text.toList.dropWhile fun c => Token.IsLegal c).head?
    let tokens := (Source.tokens ⟨0, legal⟩).1
    Nested limit 0 tokens →
      ∃ outline : Outline, outline.Fits tokens ∧
        (∀ other, Outline.Fits other tokens → other = outline) ∧
        (read limit text).mapError Fault.message = outline.report legal.length stray ∧
        ∀ fault, read limit text = .error fault → fault.kind = .reading := by
  intro legal stray tokens nested
  have hlegal : ∀ c ∈ legal, Token.IsLegal c := by
    intro c hc
    have hall : decide (Token.IsLegal c) = true :=
      List.mem_takeWhile_imp (p := fun c => decide (Token.IsLegal c)) hc
    exact of_decide_eq_true hall
  have hstops : ∀ c ∈ stray, ¬ Token.IsLegal c := by
    intro c hc
    have hstop := List.head?_dropWhile_not (fun c => decide (Token.IsLegal c)) text.toList
    rw [show (text.toList.dropWhile fun c => Token.IsLegal c).head? = some c from hc] at hstop
    exact of_decide_eq_false hstop
  have htext : text.toList = legal ++ text.toList.dropWhile fun c => Token.IsLegal c :=
    List.takeWhile_append_dropWhile.symm
  have htokens : (Source.ofString text).tokens =
      (tokens, stray.map (.unexpectedChar legal.length)) := by
    rw [Source.ofString, htext, Source.tokens_append hlegal hstops, Nat.zero_add]
  obtain ⟨outline, hfits⟩ := Outline.exists_fits tokens
  refine ⟨outline, hfits, fun other hother => ?_, ?_, fun fault hfault => ?_⟩
  · rw [← Outline.within_of_fits hfits, Outline.within_of_fits hother]
  · have hread : read limit text = (Outline.within [] (Source.ofString text).tokens.1).verdict
        (Source.ofString text).tokens.2 := by
      rw [TokenStream.read_eq_conclude]
      refine TokenStream.conclude_parseWithin limit [] (.ofString text) ?_
      rw [htokens]
      exact nested
    rw [hread, htokens, Outline.within_of_fits hfits]
    exact Outline.mapError_verdict legal.length stray outline
  · obtain ⟨cause, rfl⟩ := unreadable_of_read hfault
    rfl

/-- A token behind a complete expression is reported, and not the stray character behind it. -/
theorem read_reports_token_before_stray :
    (read (some 1) "(a b) ) #").mapError Fault.message =
      .error "Unexpected ')' after end of program" := by
  have nested : Nested (some 1) 0
      (Source.tokens ⟨0, "(a b) ) #".toList.takeWhile fun c => Token.IsLegal c⟩).1 := by
    decide +kernel
  obtain ⟨outline, -, hunique, hreport, -⟩ := read_reports_outline (some 1) "(a b) ) #" nested
  have hwhole : Forms [.opening, .atom "a", .atom "b", .closing]
      [.ofList [.atom "a", .atom "b"]] := .list (.atom (.atom .none)) .none
  have htokens : (Source.tokens ⟨0, "(a b) ) #".toList.takeWhile fun c => Token.IsLegal c⟩).1 =
      [.opening, .atom "a", .atom "b", .closing] ++ [.closing] := by decide +kernel
  rw [hreport, ← hunique (.followed .closing) (htokens ▸ .followed hwhole .closing [])]
  decide +kernel

end Evlis
