import Evlis.Proofs.SyntaxFaults

/-!
# How a text is cut into tokens

A text lays tokens out if it holds them one after another, with white space in front of each and
behind the last, where a name goes as far as it can. A text without stray characters lays out its
own tokens and no others. So nothing but white space is lost, names are maximal runs of their
characters, and it does not matter how much white space stands between tokens. Main statement:
`lexing_law`.
-/

namespace Evlis

open SExpr

/-- The texts that hold the tokens and white space, and nothing else. -/
inductive LaysOut : (text : List Char) → (tokens : List Token) → Prop where
  | finish {space : List Char} (blank : Blank space) : LaysOut space []
  | token {space rest : List Char} {t : Token} {tokens : List Token} (blank : Blank space)
      (whole : ∀ name, t = .atom name → IsName name ∧ Delimited rest)
      (others : LaysOut rest tokens) : LaysOut (space ++ (t.text.toList ++ rest)) (t :: tokens)

/-- The name stands between the two texts, and goes on into neither of them. -/
structure IsRun (front : List Char) (name : String) (back : List Char) : Prop where
  isName : IsName name
  begins : ∀ c ∈ front.getLast?, Token.isNameChar c = false
  ends : Delimited back

def Token.joined (gap : Nat → List Char) : List Token → List Char
  | [] => []
  | [t] => t.text.toList
  | t :: u :: tokens =>
    t.text.toList ++ (gap 0 ++ joined (fun i => gap (i + 1)) (u :: tokens))

namespace Source

lemma next_of_token {space rest : List Char} {t : Token} (blank : Blank space)
    (whole : ∀ name, t = .atom name → IsName name ∧ Delimited rest) (position : Nat) :
    ∃ after, (⟨position, space ++ (t.text.toList ++ rest)⟩ : Source).next =
      .token t ⟨after, rest⟩ := by
  cases t with
  | opening => exact next_opening blank rfl
  | closing => exact next_closing blank rfl
  | atom name =>
    obtain ⟨isName, apart⟩ := whole name rfl
    exact next_name blank isName apart rfl

theorem tokens_of_laysOut {text : List Char} {found : List Token} (h : LaysOut text found) :
    ∀ position, tokens ⟨position, text⟩ = (found, none) := by
  induction h with
  | finish blank =>
    intro position
    exact tokens_of_finish (next_eq_finish_iff.mpr blank)
  | token blank whole _ ih =>
    intro position
    obtain ⟨after, hnext⟩ := next_of_token blank whole position
    rw [tokens_of_token hnext, ih after]

/-- A text of legal characters lays out its tokens. -/
theorem laysOut_tokens {text : List Char} (legal : ∀ c ∈ text, Token.IsLegal c) (position : Nat) :
    LaysOut text (tokens ⟨position, text⟩).1 := by
  induction hn : text.length using Nat.strong_induction_on generalizing text position with
  | _ n ih =>
    subst hn
    cases hnext : (⟨position, text⟩ : Source).next with
    | finish =>
      rw [tokens_of_finish hnext]
      exact .finish (next_eq_finish_iff.mp hnext)
    | stray place c => exact absurd hnext (next_ne_stray legal position place c)
    | token t after =>
      obtain ⟨space, blank, htext, whole⟩ := rest_of_next hnext
      have hrest := ih _ (length_lt_of_next hnext)
        (fun c hc => legal c ((drop_of_next hnext).1 c hc)) after.position rfl
      have hlayout := LaysOut.token blank whole hrest
      rw [← htext] at hlayout
      rwa [tokens_of_token hnext]

end Source

lemma not_nameChar_of_space {c : Char} (h : Token.isSpace c = true) :
    Token.isNameChar c = false := by
  rw [Bool.eq_false_iff]
  intro hname
  rw [Source.not_space_of_nameChar hname] at h
  cases h

/-- White space keeps names apart. -/
lemma Blank.delimited_append {space : List Char} (blank : Blank space) (hne : space ≠ [])
    (rest : List Char) : Delimited (space ++ rest) := by
  obtain ⟨c, space, rfl⟩ := List.exists_cons_of_ne_nil hne
  rintro _ ⟨⟩
  exact not_nameChar_of_space (blank c List.mem_cons_self)

/-- In front of a name, another name would go on. -/
lemma not_delimited_of_isName {name : String} (h : IsName name) (back : List Char) :
    ¬ Delimited (name.toList ++ back) := by
  intro hdelimited
  cases hname : name.toList with
  | nil => exact h.1 (String.toList_eq_nil_iff.mp hname)
  | cons c cs =>
    rw [hname] at hdelimited
    have hc : Token.isNameChar c = true := h.2 c (by simp [hname])
    rw [hdelimited c rfl] at hc
    cases hc

lemma not_space_of_text {t : Token} (spelled : ∀ name, t = .atom name → IsName name) :
    ∀ c ∈ t.text.toList, Token.isSpace c = false := by
  intro c hc
  cases t with
  | opening =>
    obtain rfl : c = '(' := by simpa [Token.text] using hc
    decide
  | closing =>
    obtain rfl : c = ')' := by simpa [Token.text] using hc
    decide
  | atom name => exact Source.not_space_of_nameChar ((spelled name rfl).2 c hc)

lemma text_ne_nil {t : Token} (spelled : ∀ name, t = .atom name → IsName name) :
    t.text.toList ≠ [] := by
  cases t with
  | opening => decide
  | closing => decide
  | atom name =>
    intro hnil
    exact (spelled name rfl).1 (String.toList_eq_nil_iff.mp hnil)

namespace LaysOut

variable {text : List Char} {tokens : List Token}

/-- Nothing but white space is lost. -/
lemma flatMap_text (h : LaysOut text tokens) :
    tokens.flatMap (·.text.toList) = text.filter fun c => !Token.isSpace c := by
  have hblank : ∀ {space : List Char}, Blank space →
      space.filter (fun c => !Token.isSpace c) = [] := by
    intro space blank
    rw [List.filter_eq_nil_iff]
    intro c hc
    simp [blank c hc]
  induction h with
  | finish blank => exact (hblank blank).symm
  | @token space rest t tokens blank whole _ ih =>
    have htext : t.text.toList.filter (fun c => !Token.isSpace c) = t.text.toList := by
      rw [List.filter_eq_self]
      intro c hc
      rw [not_space_of_text (fun name ht => (whole name ht).1) c hc]
      rfl
    rw [List.flatMap_cons, List.filter_append, List.filter_append, hblank blank, htext, ih,
      List.nil_append]

lemma length_le (h : LaysOut text tokens) : tokens.length ≤ text.length := by
  induction h with
  | finish _ => exact Nat.zero_le _
  | token blank whole _ ih =>
    have hpos := List.length_pos_iff.mpr (text_ne_nil fun name ht => (whole name ht).1)
    simp only [List.length_cons, List.length_append]
    omega

/-- A name among the tokens is a run in the text, behind a part of the text that lays out the tokens
in front of the name. -/
lemma exists_run {before after : List Token} {name : String}
    (h : LaysOut text (before ++ .atom name :: after)) :
    ∃ front back, text = front ++ (name.toList ++ back) ∧ LaysOut front before ∧
      IsRun front name back := by
  induction before generalizing text with
  | nil =>
    cases h with
    | @token space rest _ _ blank whole _ =>
      obtain ⟨isName, ends⟩ := whole name rfl
      refine ⟨space, rest, rfl, .finish blank, isName, ?_, ends⟩
      intro c hc
      exact not_nameChar_of_space (blank c (List.mem_of_getLast? hc))
  | cons t before ih =>
    cases h with
    | @token space rest _ _ blank whole others =>
      obtain ⟨front, back, rfl, hfront, run⟩ := ih others
      have hwhole : ∀ n, t = .atom n → IsName n ∧ Delimited front := fun n ht =>
        ⟨(whole n ht).1, (whole n ht).2.of_append⟩
      refine ⟨space ++ (t.text.toList ++ front), back, by simp, .token blank hwhole hfront,
        run.isName, ?_, run.ends⟩
      intro c hc
      cases hlast : front.getLast? with
      | some d =>
        have hd : d = c := by simpa [List.getLast?_append, hlast] using hc
        exact hd ▸ run.begins d hlast
      | none =>
        -- the name follows the token at once, so the token cannot be a name
        obtain rfl : front = [] := List.getLast?_eq_none_iff.mp hlast
        cases t with
        | opening =>
          obtain rfl : '(' = c := by simpa [Token.text, List.getLast?_append] using hc
          decide
        | closing =>
          obtain rfl : ')' = c := by simpa [Token.text, List.getLast?_append] using hc
          decide
        | atom n =>
          exact absurd (whole n rfl).2 (not_delimited_of_isName run.isName back)

lemma space {space : List Char} (blank : Blank space) (h : LaysOut text tokens) :
    LaysOut (space ++ text) tokens := by
  have happend : ∀ {rest : List Char}, Blank rest → Blank (space ++ rest) := by
    intro rest hrest c hc
    exact (List.mem_append.mp hc).elim (blank c) (hrest c)
  cases h with
  | finish hrest => exact .finish (happend hrest)
  | token hrest whole others =>
    rw [← List.append_assoc]
    exact .token (happend hrest) whole others

/-- Tokens are laid out with any white space between them. -/
lemma joined (h : LaysOut text tokens) {gap : Nat → List Char}
    (gaps : ∀ i, gap i ≠ [] ∧ Blank (gap i)) : LaysOut (Token.joined gap tokens) tokens := by
  induction h generalizing gap with
  | finish _ => exact .finish .nil
  | @token space rest t tokens _ whole others ih =>
    cases tokens with
    | nil =>
      have hend : Delimited [] := nofun
      have hlast := LaysOut.token .nil (fun name ht => ⟨(whole name ht).1, hend⟩)
        (.finish .nil : LaysOut [] [])
      simpa [Token.joined] using hlast
    | cons u tokens =>
      obtain ⟨hne, blank⟩ := gaps 0
      have hothers := ih fun i => gaps (i + 1)
      have hgap : LaysOut (gap 0 ++ Token.joined (fun i => gap (i + 1)) (u :: tokens))
          (u :: tokens) := hothers.space blank
      exact .token .nil (fun name ht => ⟨(whole name ht).1, blank.delimited_append hne _⟩) hgap

end LaysOut

namespace Source

/-- A text is legal, or a stray character stands behind legal ones. -/
lemma exists_front (text : List Char) :
    ∃ front back, text = front ++ back ∧ (∀ c ∈ front, Token.IsLegal c) ∧
      ∀ c ∈ back.head?, ¬ Token.IsLegal c := by
  refine ⟨text.takeWhile fun c => Token.IsLegal c, text.dropWhile fun c => Token.IsLegal c,
    List.takeWhile_append_dropWhile.symm, ?_, ?_⟩
  · intro c hc
    exact of_decide_eq_true (List.mem_takeWhile_imp (p := fun c => decide (Token.IsLegal c)) hc)
  · intro c hc
    have hstop := List.head?_dropWhile_not (fun c => decide (Token.IsLegal c)) text
    rw [Option.mem_def.mp hc] at hstop
    exact of_decide_eq_false hstop

lemma ofString_ofList (text : List Char) : ofString (String.ofList text) = ⟨0, text⟩ := by
  rw [ofString, String.toList_ofList]

section Front

variable {text : String} {front back : List Char} (htext : text.toList = front ++ back)
  (legal : ∀ c ∈ front, Token.IsLegal c) (stray : ∀ c ∈ back.head?, ¬ Token.IsLegal c)

include htext legal stray

/-- The fault of a text is its first stray character. -/
lemma stop_of_front :
    (ofString text).tokens.2 = back.head?.map (.unexpectedChar front.length) := by
  rw [ofString, htext, tokens_append legal stray, Nat.zero_add]

lemma laysOut_front : LaysOut front (ofString text).tokens.1 := by
  rw [ofString, htext, tokens_append legal stray]
  exact laysOut_tokens legal 0

end Front

end Source

/-- A stray character behind a run is no part of the run. -/
lemma IsRun.append {front back more : List Char} {name : String} (h : IsRun front name back)
    (stray : ∀ c ∈ more.head?, ¬ Token.IsLegal c) : IsRun front name (back ++ more) := by
  refine ⟨h.isName, h.begins, h.ends.append ?_⟩
  intro c hc
  rw [Bool.eq_false_iff]
  exact fun hname => stray c hc (.inr (.inr (.inr hname)))

/-- There are no more tokens than characters. Cutting a text into tokens comes to its end unless the
text holds a stray character, and then reports the first of them and its place, behind the tokens of
the text in front of it. Otherwise nothing but white space is lost. Every name among the tokens is a
maximal run in the text, behind the tokens in front of it. And the tokens are found again in every
text that has them with white space between them. -/
theorem lexing_law (text : String) :
    let tokens := (Source.ofString text).tokens.1
    let stop := (Source.ofString text).tokens.2
    tokens.length ≤ text.length ∧
    (stop = none ↔ ∀ c ∈ text.toList, Token.IsLegal c) ∧
    (∀ front c back, text.toList = front ++ c :: back → (∀ d ∈ front, Token.IsLegal d) →
      ¬ Token.IsLegal c → stop = some (.unexpectedChar front.length c) ∧
        (Source.ofString (String.ofList front)).tokens = (tokens, none)) ∧
    (stop = none →
      tokens.flatMap (·.text.toList) = text.toList.filter fun c => !Token.isSpace c) ∧
    (∀ before name after, tokens = before ++ .atom name :: after →
      ∃ front back, text.toList = front ++ (name.toList ++ back) ∧ IsRun front name back ∧
        (Source.ofString (String.ofList front)).tokens = (before, none)) ∧
    ∀ gap : Nat → List Char, (∀ i, gap i ≠ [] ∧ Blank (gap i)) →
      (Source.ofString (String.ofList (Token.joined gap tokens))).tokens = (tokens, none) := by
  intro tokens stop
  obtain ⟨front, back, htext, legal, stray⟩ := Source.exists_front text.toList
  have hlayout : LaysOut front tokens := Source.laysOut_front htext legal stray
  have hstop : stop = none ↔ back = [] := by
    rw [show stop = _ from Source.stop_of_front htext legal stray, Option.map_eq_none_iff,
      List.head?_eq_none_iff]
  refine ⟨?_, ?_, ?_, ?_, ?_, ?_⟩
  · rw [← String.length_toList, htext, List.length_append]
    exact Nat.le_add_right_of_le hlayout.length_le
  · rw [hstop, htext]
    constructor
    · rintro rfl c hc
      exact legal c (by simpa using hc)
    · intro hall
      rw [← List.head?_eq_none_iff, Option.eq_none_iff_forall_not_mem]
      intro c hc
      exact stray c hc (hall c (List.mem_append_right _ (List.mem_of_head? hc)))
  · intro front' c back' htext' legal' hc
    have stray' : ∀ d ∈ (c :: back').head?, ¬ Token.IsLegal d := by
      rintro _ ⟨⟩
      exact hc
    refine ⟨Source.stop_of_front htext' legal' stray', ?_⟩
    rw [Source.ofString_ofList]
    exact Source.tokens_of_laysOut (Source.laysOut_front htext' legal' stray') 0
  · intro hnone
    rw [hlayout.flatMap_text, htext, hstop.mp hnone, List.append_nil]
  · intro before name after htokens
    rw [htokens] at hlayout
    obtain ⟨inner, rest, rfl, hinner, run⟩ := hlayout.exists_run
    refine ⟨inner, rest ++ back, by simp [htext], run.append stray, ?_⟩
    rw [Source.ofString_ofList]
    exact Source.tokens_of_laysOut hinner 0
  · intro gap gaps
    rw [Source.ofString_ofList]
    exact Source.tokens_of_laysOut (hlayout.joined gaps) 0

/-- Two names with nothing but a parenthesis between them, in front of a stray character. -/
theorem lexing_of_names_and_stray :
    let tokens : List Token := [.opening, .atom "ab", .opening, .atom "+1", .closing]
    (Source.ofString " (ab(+1\n)#c").tokens = (tokens, some (.unexpectedChar 9 '#')) ∧
    (Source.ofString " (ab(+1\n)").tokens = (tokens, none) ∧
    (∃ front back, " (ab(+1\n)#c".toList = front ++ ("+1".toList ++ back) ∧
      IsRun front "+1" back ∧ (Source.ofString (String.ofList front)).tokens =
        ([.opening, .atom "ab", .opening], none)) ∧
    (Source.ofString "( \tab \t( \t+1 \t)").tokens = (tokens, none) := by
  intro tokens
  have htokens : (Source.ofString " (ab(+1\n)#c").tokens =
      (tokens, some (.unexpectedChar 9 '#')) := by decide +kernel
  have hfound := congrArg Prod.fst htokens
  obtain ⟨-, -, hstray, -, hrun, hjoined⟩ := lexing_law " (ab(+1\n)#c"
  rw [hfound] at hstray hrun hjoined
  have hlegal : " (ab(+1\n)".toList.all (fun d => Token.IsLegal d) = true := by decide +kernel
  obtain ⟨-, hfront⟩ := hstray " (ab(+1\n)".toList '#' ['c'] (by decide)
    (fun d hd => of_decide_eq_true (List.all_eq_true.mp hlegal d hd)) (by decide)
  have hblank : Blank [' ', '\t'] := by simp [Blank, Token.isSpace]
  have hagain := hjoined (fun _ => [' ', '\t']) fun _ => ⟨by simp, hblank⟩
  exact ⟨htokens, hfront, hrun _ _ _ rfl, hagain⟩

end Evlis
