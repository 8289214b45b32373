import Evlis.Proofs.RoundTrip

/-!
# The grammar of programs

A text is a program if it spells one expression with white space around it: a name, or a list of
expressions between parentheses. White space may stand in front of every token, and it has to stand
between two names. Reading accepts exactly the programs whose lists are nested no deeper than the
limit, each with the tree that it denotes, and reports every other text as unreadable.
-/

namespace Evlis

open SExpr

namespace Token

/-- The characters that a program text may hold. -/
def IsLegal (c : Char) : Prop :=
  isSpace c = true ∨ c = '(' ∨ c = ')' ∨ isNameChar c = true

instance (c : Char) : Decidable (IsLegal c) :=
  inferInstanceAs (Decidable (isSpace c = true ∨ c = '(' ∨ c = ')' ∨ isNameChar c = true))

end Token

def Blank (text : List Char) : Prop := ∀ c ∈ text, Token.isSpace c = true

/-- The texts that spell a sequence of expressions, with their trees, where lists are nested
`nesting` deep. A name goes as far as it can: what follows it begins with no further character of a
name. -/
inductive Spells : (nesting : Nat) → (text : List Char) → (trees : List SExpr) → Prop where
  | none : Spells 0 [] []
  | atom {nesting : Nat} {space rest : List Char} {name : String} {trees : List SExpr}
      (blank : Blank space) (isName : IsName name) (apart : Delimited rest)
      (others : Spells nesting rest trees) :
      Spells nesting (space ++ (name.toList ++ rest)) (.atom name :: trees)
  | list {inside nesting : Nat} {space inner closing rest : List Char}
      {elements trees : List SExpr} (blank : Blank space) (within : Spells inside inner elements)
      (blankClosing : Blank closing) (others : Spells nesting rest trees) :
      Spells (max (inside + 1) nesting) (space ++ '(' :: (inner ++ (closing ++ ')' :: rest)))
        (.ofList elements :: trees)

/-- The texts that spell one expression, with white space around it. -/
def IsProgram (nesting : Nat) (text : List Char) (tree : SExpr) : Prop :=
  ∃ form space, Spells nesting form [tree] ∧ Blank space ∧ text = form ++ space

lemma Blank.nil : Blank [] := by
  intro c hc
  cases hc

lemma Blank.dropWhile {text : List Char} (h : Blank text) : text.dropWhile Token.isSpace = [] :=
  List.dropWhile_eq_nil_iff.mpr h

lemma Delimited.append {text rest : List Char} (htext : Delimited text) (hrest : Delimited rest) :
    Delimited (text ++ rest) := by
  cases text with
  | nil => exact hrest
  | cons c text => exact htext

lemma Delimited.of_append {text rest : List Char} (h : Delimited (text ++ rest)) :
    Delimited text := by
  cases text with
  | nil =>
    intro c hc
    cases hc
  | cons c text => exact h

/-- White space and the end of a list go on with no name. -/
lemma Blank.delimited {space rest : List Char} (h : Blank space) (hrest : Delimited rest) :
    Delimited (space ++ rest) := by
  cases space with
  | nil => exact hrest
  | cons c space =>
    intro d hd
    cases hd
    have hspace : Token.isSpace c = true := h c (by simp)
    by_contra hname
    rw [Bool.not_eq_false] at hname
    rw [Source.not_space_of_nameChar hname] at hspace
    cases hspace

lemma delimited_closing (rest : List Char) : Delimited (')' :: rest) := by
  intro c hc
  cases hc
  decide

namespace Source

lemma skipSpace_rest {s : Source} {space rest : List Char} (hspace : Blank space)
    (h : s.rest = space ++ rest) : s.skipSpace.rest = rest.dropWhile Token.isSpace := by
  rw [skipSpace, h]
  exact List.dropWhile_append_of_pos hspace

lemma next_name {s : Source} {space rest : List Char} {name : String} (hspace : Blank space)
    (hname : IsName name) (hrest : Delimited rest) (h : s.rest = space ++ (name.toList ++ rest)) :
    ∃ position, s.next = .token (.atom name) ⟨position, rest⟩ := by
  refine head_name hname hrest ?_
  rw [skipSpace_rest hspace h]
  have hread : (SExpr.atom name).Readable := hname
  have hdrop := dropWhile_chars hread rest
  rwa [chars_atom] at hdrop

lemma next_opening {s : Source} {space rest : List Char} (hspace : Blank space)
    (h : s.rest = space ++ '(' :: rest) :
    ∃ position, s.next = .token .opening ⟨position, rest⟩ :=
  ⟨_, head_opening (skipSpace_rest hspace h)⟩

lemma next_closing {s : Source} {space rest : List Char} (hspace : Blank space)
    (h : s.rest = space ++ ')' :: rest) :
    ∃ position, s.next = .token .closing ⟨position, rest⟩ := by
  have hrest : s.skipSpace.rest = ')' :: rest := skipSpace_rest hspace h
  refine ⟨s.skipSpace.position + 1, ?_⟩
  simp [next, head, hrest]

lemma next_eq_finish_iff {s : Source} : s.next = .finish ↔ Blank s.rest := by
  have hhead : s.next = .finish ↔ s.skipSpace.rest = [] := by
    rw [next, head]
    split
    · rename_i hnil
      simp [hnil]
    · rename_i hcons
      simp only [hcons, reduceCtorEq, iff_false]
      split
      · simp
      · split
        · simp
        · split <;> simp
  rw [hhead]
  exact List.dropWhile_eq_nil_iff

/-- A token is cut off the head of the text, and a name goes as far as it can. -/
lemma rest_of_head {s after : Source} {t : Token} (h : s.head = .token t after) :
    s.rest = t.text.toList ++ after.rest ∧ ∀ name, t = .atom name → Delimited after.rest := by
  rw [head] at h
  split at h
  · cases h
  · rename_i c rest hrest
    rw [hrest]
    split at h
    · rename_i hc
      cases h
      exact ⟨by rw [hc]; rfl, by simp⟩
    · split at h
      · rename_i hc
        cases h
        exact ⟨by rw [hc]; rfl, by simp⟩
      · split at h
        · cases h
          refine ⟨by simp [Token.text], ?_⟩
          intro _ _ d hd
          have hstop := List.head?_dropWhile_not Token.isNameChar rest
          rw [Option.mem_def.mp hd] at hstop
          exact hstop
        · cases h

lemma rest_of_next {s after : Source} {t : Token} (h : s.next = .token t after) :
    ∃ space, Blank space ∧ s.rest = space ++ (t.text.toList ++ after.rest) ∧
      ∀ name, t = .atom name → IsName name ∧ Delimited after.rest := by
  obtain ⟨htext, hstop⟩ := rest_of_head h
  refine ⟨s.rest.takeWhile Token.isSpace, fun c hc => List.mem_takeWhile_imp hc, ?_, ?_⟩
  · rw [← htext]
    exact List.takeWhile_append_dropWhile.symm
  · rintro name rfl
    exact ⟨isName_of_next h, hstop name rfl⟩

end Source

namespace TokenStream

/-- Expressions that are spelled in the middle of a list become elements of it. -/
lemma parseWithin_spells {limit : Option Nat} {nesting : Nat} {text : List Char}
    {trees : List SExpr} (h : Spells nesting text trees) :
    ∀ elements outer position rest, Delimited rest →
      Shallow limit (nesting + (outer.length + 1)) →
      ∃ position', parseWithin limit (elements :: outer) ⟨⟨position, text ++ rest⟩, none⟩ =
        parseWithin limit ((trees.reverse ++ elements) :: outer) ⟨⟨position', rest⟩, none⟩ := by
  induction h with
  | none =>
    intro elements outer position rest _ _
    exact ⟨position, rfl⟩
  | @atom nesting space others name trees blank isName apart _ ih =>
    intro elements outer position rest hrest hroom
    obtain ⟨between, hnext⟩ := Source.next_name
      (s := ⟨position, space ++ (name.toList ++ others) ++ rest⟩) blank isName
      (apart.append hrest) (by simp only [List.append_assoc])
    obtain ⟨position', hothers⟩ := ih (.atom name :: elements) outer between rest hrest hroom
    refine ⟨position', ?_⟩
    rw [parseWithin_atom hnext, place, proceed, hothers]
    simp
  | @list inside nesting space inner closing others items trees blank _ blankClosing _ ihInner ih =>
    intro elements outer position rest hrest hroom
    have hsplit : space ++ '(' :: (inner ++ (closing ++ ')' :: others)) ++ rest =
        space ++ '(' :: (inner ++ (closing ++ ')' :: (others ++ rest))) := by simp
    obtain ⟨opened, hopening⟩ := Source.next_opening
      (s := ⟨position, space ++ '(' :: (inner ++ (closing ++ ')' :: others)) ++ rest⟩) blank hsplit
    have hdeeper : Shallow limit (inside + ((elements :: outer).length + 1)) :=
      hroom.mono (by simp only [List.length_cons]; omega)
    obtain ⟨between, hinner⟩ := ihInner [] (elements :: outer) opened
      (closing ++ ')' :: (others ++ rest)) (blankClosing.delimited (delimited_closing _)) hdeeper
    obtain ⟨closed, hclosing⟩ := Source.next_closing
      (s := ⟨between, closing ++ ')' :: (others ++ rest)⟩) blankClosing rfl
    obtain ⟨position', hothers⟩ := ih (.ofList items :: elements) outer closed rest hrest
      (hroom.mono (by omega))
    refine ⟨position', ?_⟩
    rw [parseWithin_opening hopening, not_atLimit (hdeeper.mono (by omega)),
      if_neg Bool.false_ne_true, hinner, parseWithin_closing hclosing, List.append_nil, place,
      proceed]
    rw [SExpr.ofList] at hothers
    rw [hothers]
    simp [SExpr.ofList]

/-- A single expression is read, and no more than the expression. -/
lemma parse_spells {limit : Option Nat} {nesting : Nat} {text rest : List Char} {tree : SExpr}
    (h : Spells nesting text [tree]) (hrest : Delimited rest) (hroom : Shallow limit nesting)
    (position : Nat) :
    ∃ position', parse limit ⟨⟨position, text ++ rest⟩, none⟩ =
      (.ok (some tree), ⟨⟨position', rest⟩, none⟩) := by
  cases h with
  | @atom _ space others name _ blank isName apart hothers =>
    cases hothers
    obtain ⟨position', hnext⟩ := Source.next_name
      (s := ⟨position, space ++ (name.toList ++ []) ++ rest⟩) blank isName hrest (by simp)
    exact ⟨position', parseWithin_atom hnext⟩
  | @list inside nesting space inner closing others items _ blank within blankClosing hothers =>
    cases hothers
    have hsplit : space ++ '(' :: (inner ++ (closing ++ ')' :: [])) ++ rest =
        space ++ '(' :: (inner ++ (closing ++ ')' :: rest)) := by simp
    obtain ⟨opened, hopening⟩ := Source.next_opening
      (s := ⟨position, space ++ '(' :: (inner ++ (closing ++ ')' :: [])) ++ rest⟩) blank hsplit
    have hdeeper : Shallow limit (inside + 1) := hroom.mono (by omega)
    obtain ⟨between, hinner⟩ := parseWithin_spells within [] [] opened (closing ++ ')' :: rest)
      (blankClosing.delimited (delimited_closing _)) hdeeper
    obtain ⟨position', hclosing⟩ := Source.next_closing
      (s := ⟨between, closing ++ ')' :: rest⟩) blankClosing rfl
    refine ⟨position', ?_⟩
    rw [parse, parseWithin_opening hopening, not_atLimit (hdeeper.mono (by simp)),
      if_neg Bool.false_ne_true, hinner, parseWithin_closing hclosing, List.append_nil]
    rfl

end TokenStream

lemma read_of_isProgram {limit : Option Nat} {nesting : Nat} {text : String} {tree : SExpr}
    (h : IsProgram nesting text.toList tree) (hroom : Shallow limit nesting) :
    read limit text = .ok tree := by
  obtain ⟨form, space, hform, hspace, htext⟩ := h
  have hdelimited : Delimited space := by
    have hend : Delimited (space ++ []) := hspace.delimited (by intro c hc; cases hc)
    rwa [List.append_nil] at hend
  obtain ⟨position, hparse⟩ := TokenStream.parse_spells hform hdelimited hroom 0
  have hfinish : (⟨position, space⟩ : Source).next = .finish :=
    Source.next_eq_finish_iff.mpr hspace
  rw [read, TokenStream.ofString, Source.ofString, htext, hparse]
  simp [TokenStream.peek, TokenStream.pull, hfinish]

/-! ## Nothing else is read -/

/-- The text `text` ends a list that has `elements` so far, last first, and `close` says what may
follow the list. -/
def Finishes (limit : Option Nat) (around : Nat) (close : SExpr → List Char → Prop)
    (elements : List SExpr) (text : List Char) : Prop :=
  ∃ nesting inner trees closing after, Spells nesting inner trees ∧
    Shallow limit (nesting + 1 + around) ∧ Blank closing ∧
    text = inner ++ (closing ++ ')' :: after) ∧
    close (.ofReversed (trees.reverse ++ elements) .nil) after

/-- What has to stand behind an expression for the lists around it to end, so that all of it
denotes `tree`. -/
def Closes (limit : Option Nat) (tree : SExpr) :
    (around : List (List SExpr)) → (e : SExpr) → (text : List Char) → Prop
  | [], e, text => text = [] ∧ e = tree
  | elements :: outer, e, text =>
    Finishes limit outer.length (Closes limit tree outer) (e :: elements) text

/-- What has to stand behind unfinished lists, so that all of it denotes `tree`. -/
def ReadsThrough (limit : Option Nat) (tree : SExpr) :
    (unfinished : List (List SExpr)) → (text : List Char) → Prop
  | [], text => ∃ nesting, Spells nesting text [tree] ∧ Shallow limit nesting
  | elements :: outer, text =>
    Finishes limit outer.length (Closes limit tree outer) elements text

section Steps

variable {limit : Option Nat} {tree : SExpr} {unfinished outer : List (List SExpr)}
  {elements : List SExpr} {space text : List Char}

lemma Finishes.atom {around : Nat} {close : SExpr → List Char → Prop} {name : String}
    (h : Finishes limit around close (.atom name :: elements) text) (hspace : Blank space)
    (hname : IsName name) (hstop : Delimited text) :
    Finishes limit around close elements (space ++ (name.toList ++ text)) := by
  obtain ⟨nesting, inner, trees, closing, after, hinner, hroom, hclosing, rfl, hclose⟩ := h
  refine ⟨nesting, space ++ (name.toList ++ inner), .atom name :: trees, closing, after,
    .atom hspace hname hstop.of_append hinner, hroom, hclosing, by simp, ?_⟩
  simpa using hclose

lemma readsThrough_atom {name : String} (hspace : Blank space) (hname : IsName name)
    (hstop : Delimited text) (h : Closes limit tree unfinished (.atom name) text) :
    ReadsThrough limit tree unfinished (space ++ (name.toList ++ text)) := by
  cases unfinished with
  | nil =>
    obtain ⟨rfl, rfl⟩ := h
    exact ⟨0, .atom hspace hname hstop .none, fun n _ => Nat.zero_le n⟩
  | cons elements outer => exact Finishes.atom h hspace hname hstop

lemma readsThrough_opening (hspace : Blank space)
    (h : ReadsThrough limit tree ([] :: unfinished) text) :
    ReadsThrough limit tree unfinished (space ++ '(' :: text) := by
  obtain ⟨nesting, inner, trees, closing, after, hinner, hroom, hclosing, rfl, hclose⟩ := h
  rw [List.append_nil] at hclose
  cases unfinished with
  | nil =>
    obtain ⟨rfl, rfl⟩ := hclose
    refine ⟨max (nesting + 1) 0, .list hspace hinner hclosing .none, ?_⟩
    exact hroom.mono (by simp)
  | cons elements outer =>
    obtain ⟨nesting', inner', trees', closing', after', hinner', hroom', hclosing', rfl, hclose'⟩ :=
      hclose
    refine ⟨max (nesting + 1) nesting',
      space ++ '(' :: (inner ++ (closing ++ ')' :: inner')), .ofList trees :: trees', closing',
      after', .list hspace hinner hclosing hinner', ?_, hclosing', by simp, ?_⟩
    · intro n hn
      have hleft := hroom n hn
      have hright := hroom' n hn
      simp only [List.length_cons] at hleft
      omega
    · simpa [SExpr.ofList] using hclose'

lemma readsThrough_closing (hspace : Blank space) (hroom : Shallow limit (outer.length + 1))
    (h : Closes limit tree outer (.ofReversed elements .nil) text) :
    ReadsThrough limit tree (elements :: outer) (space ++ ')' :: text) :=
  ⟨0, [], [], space, text, .none, hroom.mono (by omega), hspace, rfl, h⟩

end Steps

namespace TokenStream

lemma next_of_peek {stream rest : TokenStream} {t : Token} (hbuffer : stream.buffer = none)
    (h : stream.peek = (.ok (some t), rest)) :
    ∃ after, stream.source.next = .token t after ∧ rest.drop = ⟨after, none⟩ := by
  obtain ⟨source, buffer⟩ := stream
  cases hbuffer
  simp only [peek, pull] at h
  cases hnext : source.next with
  | finish => simp [hnext] at h
  | stray position c => simp [hnext] at h
  | token u after =>
    simp only [hnext, Prod.mk.injEq, Except.ok.injEq, Option.some.injEq] at h
    obtain ⟨rfl, rfl⟩ := h
    exact ⟨after, rfl, rfl⟩

lemma closes_of_place_inl {limit : Option Nat} {unfinished : List (List SExpr)} {e tree : SExpr}
    (h : place e unfinished = .inl tree) : Closes limit tree unfinished e [] := by
  obtain ⟨rfl, rfl⟩ := eq_of_place_inl h
  exact ⟨rfl, rfl⟩

lemma closes_of_place_inr {limit : Option Nat} {unfinished unfinished' : List (List SExpr)}
    {e tree : SExpr} {text : List Char} (hplace : place e unfinished = .inr unfinished')
    (h : ReadsThrough limit tree unfinished' text) : Closes limit tree unfinished e text := by
  cases unfinished with
  | nil => cases hplace
  | cons elements outer =>
    cases hplace
    exact h

lemma length_of_place_inr {unfinished unfinished' : List (List SExpr)} {e : SExpr}
    (h : place e unfinished = .inr unfinished') : unfinished'.length = unfinished.length := by
  cases unfinished with
  | nil => cases h
  | cons elements outer =>
    cases h
    rfl

/-- What is consumed completes the unfinished lists. -/
lemma readsThrough_of_parseWithin (limit : Option Nat) (unfinished : List (List SExpr))
    (stream : TokenStream) (tree : SExpr) (rest : TokenStream) (hbuffer : stream.buffer = none)
    (hroom : Shallow limit unfinished.length)
    (h : parseWithin limit unfinished stream = (.ok (some tree), rest)) :
    rest.buffer = none ∧ ∃ text, stream.source.rest = text ++ rest.source.rest ∧
      ReadsThrough limit tree unfinished text := by
  -- The induction follows the reader: what is left to read completes the lists that are
  -- unfinished after a token, so that the token and what is left complete those before it.
  fun_induction parseWithin limit unfinished stream with
  | case1 => cases h
  | case2 => cases h
  | case3 => cases h
  | case4 unfinished stream name rest' hpeek _ e hplace =>
    obtain ⟨after, hnext, hdrop⟩ := next_of_peek hbuffer hpeek
    obtain ⟨space, hspace, htext, hstop⟩ := Source.rest_of_next hnext
    obtain ⟨hname, -⟩ := hstop name rfl
    cases h
    refine ⟨rfl, space ++ (name.toList ++ []), by simp [htext, hdrop, Token.text], ?_⟩
    exact readsThrough_atom hspace hname (by intro c hc; cases hc) (closes_of_place_inl hplace)
  | case5 unfinished stream name rest' hpeek _ unfinished' hplace ih =>
    obtain ⟨after, hnext, hdrop⟩ := next_of_peek hbuffer hpeek
    obtain ⟨space, hspace, htext, hstop⟩ := Source.rest_of_next hnext
    obtain ⟨hname, hdelimited⟩ := hstop name rfl
    rw [← length_of_place_inr hplace] at hroom
    obtain ⟨hend, text, hafter, hcompletes⟩ := ih rfl hroom h
    rw [hdrop] at hafter
    rw [hafter] at htext hdelimited
    refine ⟨hend, space ++ (name.toList ++ text), by simp [htext, Token.text], ?_⟩
    exact readsThrough_atom hspace hname hdelimited.of_append (closes_of_place_inr hplace hcompletes)
  | case6 => cases h
  | case7 unfinished stream rest' hpeek _ hlimit ih =>
    obtain ⟨after, hnext, hdrop⟩ := next_of_peek hbuffer hpeek
    obtain ⟨space, hspace, htext, -⟩ := Source.rest_of_next hnext
    have hdeeper : Shallow limit ([] :: unfinished).length :=
      (shallow_of_not_atLimit hlimit).mono (by simp only [List.length_cons]; omega)
    obtain ⟨hend, text, hafter, hcompletes⟩ := ih rfl hdeeper h
    rw [hdrop] at hafter
    rw [hafter] at htext
    exact ⟨hend, space ++ '(' :: text, by simp [htext, Token.text],
      readsThrough_opening hspace hcompletes⟩
  | case8 => cases h
  | case9 stream rest' hpeek elements outer _ e hplace =>
    obtain ⟨after, hnext, hdrop⟩ := next_of_peek hbuffer hpeek
    obtain ⟨space, hspace, htext, -⟩ := Source.rest_of_next hnext
    cases h
    refine ⟨rfl, space ++ ')' :: [], by simp [htext, hdrop, Token.text], ?_⟩
    exact readsThrough_closing hspace hroom (closes_of_place_inl hplace)
  | case10 stream rest' hpeek elements outer _ unfinished' hplace ih =>
    obtain ⟨after, hnext, hdrop⟩ := next_of_peek hbuffer hpeek
    obtain ⟨space, hspace, htext, -⟩ := Source.rest_of_next hnext
    have houter : Shallow limit unfinished'.length :=
      hroom.mono (by rw [length_of_place_inr hplace]; exact Nat.le_succ _)
    obtain ⟨hend, text, hafter, hcompletes⟩ := ih rfl houter h
    rw [hdrop] at hafter
    rw [hafter] at htext
    refine ⟨hend, space ++ ')' :: text, by simp [htext, Token.text], ?_⟩
    exact readsThrough_closing hspace hroom (closes_of_place_inr hplace hcompletes)

/-- Reading stops because of the text, or because lists are nested too deep. -/
lemma fault_of_parseWithin (limit : Option Nat) (unfinished : List (List SExpr))
    (stream : TokenStream) (fault : Fault) (rest : TokenStream)
    (h : parseWithin limit unfinished stream = (.error fault, rest)) :
    fault = .tooDeep ∨ ∃ cause, fault = .unreadable cause := by
  fun_induction parseWithin limit unfinished stream with
  | case1 unfinished stream cause rest' hpeek =>
    cases h
    exact .inr ⟨cause, rfl⟩
  | case2 => cases h
  | case3 =>
    cases h
    exact .inr ⟨_, rfl⟩
  | case4 => cases h
  | case5 unfinished stream name rest' hpeek _ unfinished' hplace ih => exact ih h
  | case6 =>
    cases h
    exact .inl rfl
  | case7 unfinished stream rest' hpeek _ hlimit ih => exact ih h
  | case8 =>
    cases h
    exact .inr ⟨_, rfl⟩
  | case9 => cases h
  | case10 stream rest' hpeek elements outer _ unfinished' hplace ih => exact ih h

end TokenStream

lemma isProgram_of_read {limit : Option Nat} {text : String} {tree : SExpr}
    (h : read limit text = .ok tree) :
    ∃ nesting, IsProgram nesting text.toList tree ∧ Shallow limit nesting := by
  rw [read] at h
  split at h
  · cases h
  · cases h
  · cases h
  · rename_i e rest hparse
    obtain ⟨hbuffer, form, hform, nesting, hspells, hroom⟩ :=
      TokenStream.readsThrough_of_parseWithin limit [] (.ofString text) e rest rfl
        (fun n _ => Nat.zero_le n) hparse
    split at h
    · cases h
    · cases h
    · rename_i hpeek
      cases h
      have hfinish : rest.source.next = .finish := by
        simp only [TokenStream.peek, hbuffer, TokenStream.pull] at hpeek
        cases hnext : rest.source.next with
        | finish => rfl
        | token t after => simp [hnext] at hpeek
        | stray position c => simp [hnext] at hpeek
      exact ⟨nesting, ⟨form, rest.source.rest, hspells, Source.next_eq_finish_iff.mp hfinish,
        hform⟩, hroom⟩

lemma unreadable_of_read {limit : Option Nat} {text : String} {fault : Fault}
    (h : read limit text = .error fault) : ∃ cause, fault = .unreadable cause := by
  rw [read] at h
  split at h
  · cases h
    exact ⟨_, rfl⟩
  · rename_i fault' rest hdeep hparse
    cases h
    rcases TokenStream.fault_of_parseWithin limit [] _ _ rest hparse with rfl | hcause
    · exact absurd rfl hdeep
    · exact hcause
  · cases h
    exact ⟨_, rfl⟩
  · split at h
    · cases h
      exact ⟨_, rfl⟩
    · cases h
      exact ⟨_, rfl⟩
    · cases h

/-- Reading gives a tree exactly if the text is a program that denotes the tree and is nested no
deeper than the limit, and reports the text as unreadable exactly if it is no such program. -/
theorem read_accepts_grammar (limit : Option Nat) (text : String) :
    (∀ tree, read limit text = .ok tree ↔
      ∃ nesting, IsProgram nesting text.toList tree ∧ Shallow limit nesting) ∧
    ((∃ cause, read limit text = .error (.unreadable cause)) ↔
      ¬ ∃ tree nesting, IsProgram nesting text.toList tree ∧ Shallow limit nesting) := by
  have haccepts : ∀ tree, read limit text = .ok tree ↔
      ∃ nesting, IsProgram nesting text.toList tree ∧ Shallow limit nesting := by
    intro tree
    constructor
    · exact isProgram_of_read
    · rintro ⟨nesting, hprogram, hroom⟩
      exact read_of_isProgram hprogram hroom
  refine ⟨haccepts, ?_⟩
  constructor
  · rintro ⟨cause, hcause⟩ ⟨tree, hprogram⟩
    rw [(haccepts tree).mpr hprogram] at hcause
    cases hcause
  · intro hnone
    cases hread : read limit text with
    | ok tree => exact absurd ⟨tree, (haccepts tree).mp hread⟩ hnone
    | error fault =>
      obtain ⟨cause, rfl⟩ := unreadable_of_read hread
      exact ⟨cause, rfl⟩

end Evlis
