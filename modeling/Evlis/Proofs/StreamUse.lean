import Evlis.Proofs.Lexing
import Mathlib.Data.List.Infix

/-!
# Streams in use

A stream of tokens may be looked at, advanced and read from by any calls in any order. All that a
call can tell of a stream is which tokens are left and whether the source fails behind them, and a
call takes tokens from the front of those left. So no token is lost or taken twice, and the fault of
the source is reported by the first call that the tokens left do not suffice for, and by no other.
Main statement: `stream_accounts_for_tokens`.
-/

namespace Evlis

open SExpr

/-- Lists are nested no deeper than the limit, wherever reading begins. -/
def NestedThroughout (limit : Option Nat) (tokens : List Token) : Prop :=
  ∀ back ∈ tokens.tails, Nested limit 0 back

instance (limit : Option Nat) (tokens : List Token) : Decidable (NestedThroughout limit tokens) :=
  List.decidableBAll _ _

namespace NestedThroughout

variable {limit : Option Nat} {tokens back : List Token}

lemma nested (h : NestedThroughout limit tokens) : Nested limit 0 tokens :=
  h tokens ((List.mem_tails _ _).mpr (List.suffix_refl tokens))

lemma suffix (h : NestedThroughout limit tokens) (hback : back <:+ tokens) :
    NestedThroughout limit back := by
  intro rest hrest
  exact h rest ((List.mem_tails _ _).mpr (((List.mem_tails _ _).mp hrest).trans hback))

end NestedThroughout

namespace TokenStream

/-- The tokens that were not taken: the one looked at, and those that the source still gives. -/
def left (stream : TokenStream) : List Token := stream.buffer.toList ++ stream.source.tokens.1

/-- All that can be told of a stream: the tokens left, and the fault of the source behind them until
it has been reported. -/
def outlook (stream : TokenStream) : List Token × Option SyntaxFault :=
  (stream.left, stream.source.tokens.2)

/-- What is found where no token is left. -/
def ending : Option SyntaxFault → Except SyntaxFault (Option Token)
  | some fault => .error fault
  | none => .ok none

variable {stream : TokenStream} {t : Token} {tokens more : List Token} {stop : Option SyntaxFault}

/-- The fault of a source is a stray character. -/
lemma stray_of_outlook {fault : SyntaxFault} (h : stream.outlook = (tokens, some fault)) :
    ∃ position c, fault = .unexpectedChar position c := by
  obtain ⟨⟨position, text⟩, buffer⟩ := stream
  obtain ⟨front, back, rfl, legal, stray⟩ := Source.exists_front text
  have hstop : (Source.tokens ⟨position, front ++ back⟩).2 = some fault := congrArg Prod.snd h
  rw [Source.tokens_append legal stray] at hstop
  obtain ⟨c, -, rfl⟩ := Option.map_eq_some_iff.mp hstop
  exact ⟨_, c, rfl⟩

lemma peek_of_cons (h : stream.outlook = (t :: tokens, stop)) :
    ∃ rest, stream.peek = (.ok (some t), rest) ∧ rest.outlook = (t :: tokens, stop) ∧
      rest.drop.outlook = (tokens, stop) := by
  obtain ⟨source, buffer⟩ := stream
  obtain ⟨hleft, hstop⟩ := Prod.ext_iff.mp h
  cases buffer with
  | some u =>
    obtain ⟨rfl, htokens⟩ := List.cons.inj hleft
    exact ⟨⟨source, some u⟩, rfl, h, Prod.ext htokens hstop⟩
  | none =>
    have hfirst : source.tokens = (t :: tokens, stop) := Prod.ext hleft hstop
    cases hnext : source.next with
    | finish =>
      rw [Source.tokens_of_finish hnext] at hfirst
      cases hfirst
    | stray position c =>
      rw [Source.tokens_of_stray hnext] at hfirst
      cases hfirst
    | token u after =>
      rw [Source.tokens_of_token hnext] at hfirst
      cases hfirst
      exact ⟨⟨after, some t⟩, peek_of_next hnext, rfl, rfl⟩

lemma peek_of_nil (h : stream.outlook = ([], stop)) :
    ∃ rest, stream.peek = (ending stop, rest) ∧ rest.outlook = ([], none) ∧
      rest.drop.outlook = ([], none) := by
  obtain ⟨source, buffer⟩ := stream
  have hexhausted : source.exhausted.tokens = ([], none) := Source.tokens_of_finish rfl
  cases buffer with
  | some u => cases h
  | none =>
    have hnone : source.tokens = ([], stop) := h
    refine ⟨⟨source.exhausted, none⟩, ?_, hexhausted, hexhausted⟩
    cases hnext : source.next with
    | finish =>
      rw [Source.tokens_of_finish hnext] at hnone
      cases hnone
      simp [peek, pull, hnext, ending]
    | stray position c =>
      rw [Source.tokens_of_stray hnext] at hnone
      cases hnone
      simp [peek, pull, hnext, ending]
    | token u after =>
      rw [Source.tokens_of_token hnext] at hnone
      cases hnone

/-- What is looked at is the first of the tokens left. -/
lemma peek_eq_some_iff : stream.peek.1 = .ok (some t) ↔ stream.left.head? = some t := by
  obtain ⟨tokens, stop, hstream⟩ : ∃ tokens stop, stream.outlook = (tokens, stop) := ⟨_, _, rfl⟩
  have hleft : stream.left = tokens := congrArg Prod.fst hstream
  rw [hleft]
  cases tokens with
  | cons u tokens =>
    obtain ⟨rest, hpeek, -⟩ := peek_of_cons hstream
    simp [hpeek]
  | nil =>
    obtain ⟨rest, hpeek, -⟩ := peek_of_nil hstream
    cases stop <;> simp [hpeek, ending]

lemma advance_eq (stream : TokenStream) :
    stream.advance = (stream.peek.1, stream.peek.2.drop) := by
  obtain ⟨source, buffer⟩ := stream
  cases buffer with
  | some u => rfl
  | none =>
    unfold advance peek
    dsimp only
    rcases pull source with ⟨fault | found, after⟩ <;> rfl

/-- What reading found, the tokens that it took, and the stream behind them. -/
abbrev Taken := Except Fault (Option SExpr) × List Token × TokenStream

/-- Tokens that were taken before. -/
def ahead (tokens : List Token) (r : Taken) : Taken := (r.1, tokens ++ r.2.1, r.2.2)

@[simp]
lemma ahead_ahead (tokens more : List Token) (r : Taken) :
    ahead tokens (ahead more r) = ahead (tokens ++ more) r := by
  simp [ahead]

/-- Read on behind unfinished lists as `parseWithin` does, and tell the tokens that are taken off
the stream for it, in order. -/
def takeWithin (limit : Option Nat) (unfinished : List (List SExpr)) (stream : TokenStream) :
    Taken :=
  match h : stream.peek with
  | (.error cause, rest) => (.error (.unreadable cause), [], rest)
  | (.ok none, rest) =>
    match unfinished with
    | [] => (.ok none, [], rest)
    | _ :: _ => (.error (.unreadable .unmatchedOpening), [], rest)
  | (.ok (some (.atom name)), rest) =>
    have := size_drop_of_peek h
    match place (.atom name) unfinished with
    | .inl e => (.ok (some e), [.atom name], rest.drop)
    | .inr unfinished => ahead [.atom name] (takeWithin limit unfinished rest.drop)
  | (.ok (some .opening), rest) =>
    have := size_drop_of_peek h
    if atLimit limit unfinished.length then (.error .tooDeep, [.opening], rest.drop)
    else ahead [.opening] (takeWithin limit ([] :: unfinished) rest.drop)
  | (.ok (some .closing), rest) =>
    match unfinished with
    | [] => (.error (.unreadable .unexpectedClosing), [], rest)
    | elements :: outer =>
      have := size_drop_of_peek h
      match place (.ofReversed elements .nil) outer with
      | .inl e => (.ok (some e), [.closing], rest.drop)
      | .inr unfinished => ahead [.closing] (takeWithin limit unfinished rest.drop)
termination_by stream.size

/-- Telling the tokens changes nothing. -/
theorem parseWithin_eq (limit : Option Nat) (unfinished : List (List SExpr))
    (stream : TokenStream) :
    parseWithin limit unfinished stream =
      ((takeWithin limit unfinished stream).1, (takeWithin limit unfinished stream).2.2) := by
  -- the token in front decides the branch of both
  fun_induction takeWithin limit unfinished stream <;> rw [parseWithin] <;> split <;>
    simp_all [ahead]

/-- What reading comes to behind its last token. -/
def settle (limit : Option Nat) (rest : TokenStream) : SExpr ⊕ List (List SExpr) → Taken
  | .inl e => (.ok (some e), [], rest)
  | .inr unfinished => takeWithin limit unfinished rest

/-- What reading reports where no token is left. -/
def exhausted (unfinished : List (List SExpr)) :
    Option SyntaxFault → Except Fault (Option SExpr)
  | some fault => .error (.unreadable fault)
  | none => if unfinished.isEmpty then .ok none else .error (.unreadable .unmatchedOpening)

section Steps

variable (limit : Option Nat) (unfinished outer : List (List SExpr))

lemma takeWithin_atom {name : String} (h : stream.outlook = (.atom name :: tokens, stop)) :
    ∃ rest, rest.outlook = (tokens, stop) ∧ takeWithin limit unfinished stream =
      ahead [.atom name] (settle limit rest (place (.atom name) unfinished)) := by
  obtain ⟨rest, hfound, -, hrest⟩ := peek_of_cons h
  refine ⟨rest.drop, hrest, ?_⟩
  rw [takeWithin]
  split <;> rename_i hpeek <;> rw [hfound] at hpeek <;> cases hpeek
  cases place (.atom name) unfinished <;> rfl

lemma takeWithin_opening (h : stream.outlook = (.opening :: tokens, stop))
    (nested : Nested limit unfinished.length (.opening :: tokens)) :
    ∃ rest, rest.outlook = (tokens, stop) ∧ takeWithin limit unfinished stream =
      ahead [.opening] (takeWithin limit ([] :: unfinished) rest) := by
  obtain ⟨rest, hfound, -, hrest⟩ := peek_of_cons h
  refine ⟨rest.drop, hrest, ?_⟩
  rw [takeWithin]
  split <;> rename_i hpeek <;> rw [hfound] at hpeek <;> cases hpeek
  rw [not_atLimit nested.shallow_opening]
  rfl

lemma takeWithin_closing (elements : List SExpr)
    (h : stream.outlook = (.closing :: tokens, stop)) :
    ∃ rest, rest.outlook = (tokens, stop) ∧ takeWithin limit (elements :: outer) stream =
      ahead [.closing] (settle limit rest (place (.ofReversed elements .nil) outer)) := by
  obtain ⟨rest, hfound, -, hrest⟩ := peek_of_cons h
  refine ⟨rest.drop, hrest, ?_⟩
  rw [takeWithin]
  split <;> rename_i hpeek <;> rw [hfound] at hpeek <;> cases hpeek
  dsimp only
  cases place (.ofReversed elements .nil) outer <;> rfl

/-- A `)` that closes nothing is left where it is. -/
lemma takeWithin_unexpected (h : stream.outlook = (.closing :: tokens, stop)) :
    ∃ rest, rest.outlook = (.closing :: tokens, stop) ∧ takeWithin limit [] stream =
      (.error (.unreadable .unexpectedClosing), [], rest) := by
  obtain ⟨rest, hfound, hrest, -⟩ := peek_of_cons h
  refine ⟨rest, hrest, ?_⟩
  rw [takeWithin]
  split <;> rename_i hpeek <;> rw [hfound] at hpeek <;> cases hpeek
  rfl

lemma takeWithin_nil (h : stream.outlook = ([], stop)) :
    ∃ rest, rest.outlook = ([], none) ∧ takeWithin limit unfinished stream =
      (exhausted unfinished stop, [], rest) := by
  obtain ⟨rest, hfound, hrest, -⟩ := peek_of_nil h
  refine ⟨rest, hrest, ?_⟩
  rw [takeWithin]
  cases stop <;> split <;> rename_i hpeek <;> rw [hfound] at hpeek <;> cases hpeek
  · cases unfinished <;> rfl
  · rfl

variable {limit unfinished}

/-- Expressions in the middle of a list are taken off, and become elements of it. -/
lemma takeWithin_forms {trees : List SExpr} (h : Forms tokens trees) :
    ∀ elements outer stream, stream.outlook = (tokens ++ more, stop) →
      Nested limit (outer.length + 1) (tokens ++ more) →
      ∃ rest, rest.outlook = (more, stop) ∧ Nested limit (outer.length + 1) more ∧
        takeWithin limit (elements :: outer) stream =
          ahead tokens (takeWithin limit ((trees.reverse ++ elements) :: outer) rest) := by
  induction h generalizing more with
  | none =>
    intro elements outer stream hstream nested
    exact ⟨stream, hstream, nested, rfl⟩
  | @atom name tokens trees _ ih =>
    intro elements outer stream hstream nested
    obtain ⟨behind, hbehind, hstep⟩ := takeWithin_atom limit _ hstream
    obtain ⟨rest, hrest, hnested, hothers⟩ :=
      ih (.atom name :: elements) outer behind hbehind nested.atom
    refine ⟨rest, hrest, hnested, ?_⟩
    rw [hstep, place, settle, hothers]
    simp
  | @list inner tokens items trees _ _ ihInner ih =>
    intro elements outer stream hstream nested
    rw [List.cons_append, List.append_assoc, List.cons_append] at hstream nested
    obtain ⟨inside, hinside, hopening⟩ := takeWithin_opening limit (elements :: outer)
      hstream nested
    obtain ⟨last, hlast, hnested, hinner⟩ :=
      ihInner [] (elements :: outer) inside hinside nested.opening
    obtain ⟨behind, hbehind, hclosing⟩ := takeWithin_closing limit _ _ hlast
    obtain ⟨rest, hrest, hnested, hothers⟩ :=
      ih (.ofList items :: elements) outer behind hbehind hnested.closing
    refine ⟨rest, hrest, hnested, ?_⟩
    have hitems : ofReversed (items.reverse ++ []) .nil = .ofList items := by simp [SExpr.ofList]
    rw [hopening, hinner, hclosing, hitems, place, settle, hothers]
    simp

/-- A complete expression is taken off whole, and no more. -/
lemma takeWithin_form {form : List Token} {tree : SExpr} (h : Forms form [tree])
    (hstream : stream.outlook = (form ++ more, stop)) (nested : Nested limit 0 (form ++ more)) :
    ∃ rest, rest.outlook = (more, stop) ∧
      takeWithin limit [] stream = (.ok (some tree), form, rest) := by
  cases h with
  | atom others =>
    cases others
    exact takeWithin_atom limit _ hstream
  | @list inner _ elements _ inside others =>
    cases others
    rw [List.cons_append, List.append_assoc, List.cons_append, List.nil_append] at hstream nested
    obtain ⟨first, hfirst, hopening⟩ := takeWithin_opening limit [] hstream nested
    obtain ⟨last, hlast, -, hinner⟩ := takeWithin_forms inside [] [] first hfirst nested.opening
    obtain ⟨rest, hrest, hclosing⟩ := takeWithin_closing limit [] _ hlast
    refine ⟨rest, hrest, ?_⟩
    rw [hopening, hinner, hclosing, place, settle]
    simp [ahead, SExpr.ofList]

/-- Where tokens are missing, all that are left are taken off before that is found out. -/
lemma takeWithin_unclosed (hunclosed : Outline.within unfinished tokens = .unclosed) :
    ∀ stream, stream.outlook = (tokens, stop) → Nested limit unfinished.length tokens →
      ∃ rest, rest.outlook = ([], none) ∧ takeWithin limit unfinished stream =
        (.error (.unreadable (stop.getD .unmatchedOpening)), tokens, rest) := by
  fun_induction Outline.within unfinished tokens with
  | case1 unfinished h => cases hunclosed
  | case2 unfinished h =>
    intro stream hstream _
    obtain ⟨rest, hrest, hnil⟩ := takeWithin_nil limit unfinished hstream
    refine ⟨rest, hrest, ?_⟩
    rw [hnil]
    cases stop <;> simp [exhausted, h]
  | case3 unfinished tokens ih =>
    intro stream hstream nested
    obtain ⟨behind, hbehind, hstep⟩ := takeWithin_opening limit unfinished hstream nested
    obtain ⟨rest, hrest, hothers⟩ := ih hunclosed behind hbehind nested.opening
    exact ⟨rest, hrest, by rw [hstep, hothers]; rfl⟩
  | case4 unfinished name tokens tree hplace => cases tokens <;> cases hunclosed
  | case5 unfinished name tokens unfinished' hplace ih =>
    intro stream hstream nested
    obtain ⟨behind, hbehind, hstep⟩ := takeWithin_atom limit _ hstream
    rw [← length_of_place_inr hplace] at nested
    obtain ⟨rest, hrest, hothers⟩ := ih hunclosed behind hbehind nested.atom
    exact ⟨rest, hrest, by rw [hstep, hplace, settle, hothers]; rfl⟩
  | case6 => cases hunclosed
  | case7 tokens elements outer tree hplace => cases tokens <;> cases hunclosed
  | case8 tokens elements outer unfinished' hplace ih =>
    intro stream hstream nested
    obtain ⟨behind, hbehind, hstep⟩ := takeWithin_closing limit outer elements hstream
    rw [List.length_cons, ← length_of_place_inr hplace] at nested
    obtain ⟨rest, hrest, hothers⟩ := ih hunclosed behind hbehind nested.closing
    exact ⟨rest, hrest, by rw [hstep, hplace, settle, hothers]; rfl⟩

end Steps

/-! ## Calls -/

inductive Call where
  | peek
  | advance
  | parse

namespace Call

inductive Found where
  | token (t : Token)
  | tree (e : SExpr)
deriving DecidableEq

def reply (limit : Option Nat) (stream : TokenStream) : Call → Except Fault (Option Found)
  | peek => (stream.peek.1.mapError .unreadable).map (Option.map .token)
  | advance => (stream.advance.1.mapError .unreadable).map (Option.map .token)
  | parse => (stream.parse limit).1.map (Option.map .tree)

def after (limit : Option Nat) (stream : TokenStream) : Call → TokenStream
  | peek => stream.peek.2
  | advance => stream.advance.2
  | parse => (stream.parse limit).2

/-- The tokens that a call takes off the stream: one that it returns, or those that it reads. -/
def taken (limit : Option Nat) (stream : TokenStream) : Call → List Token
  | peek => []
  | advance => stream.advance.1.toOption.join.toList
  | parse => (takeWithin limit [] stream).2.1

/-- The tokens left do not suffice for the call. -/
def NeedsMore : Call → (left : List Token) → Prop
  | parse, left => Outline.empty.Fits left ∨ Outline.unclosed.Fits left
  | _, left => left = []

/-- What a call comes to on a stream, told by the outlooks before and after it. -/
inductive Comes : Call → (before : List Token × Option SyntaxFault) → Except Fault (Option Found) →
    (taken : List Token) → (after : List Token × Option SyntaxFault) → Prop where
  | peek (t : Token) (tokens : List Token) (stop : Option SyntaxFault) :
      Comes peek (t :: tokens, stop) (.ok (some (.token t))) [] (t :: tokens, stop)
  | advance (t : Token) (tokens : List Token) (stop : Option SyntaxFault) :
      Comes advance (t :: tokens, stop) (.ok (some (.token t))) [t] (tokens, stop)
  | parse {form : List Token} {tree : SExpr} (whole : Forms form [tree]) (more : List Token)
      (stop : Option SyntaxFault) :
      Comes parse (form ++ more, stop) (.ok (some (.tree tree))) form (more, stop)
  | closing (tokens : List Token) (stop : Option SyntaxFault) :
      Comes parse (.closing :: tokens, stop) (.error (.unreadable .unexpectedClosing)) []
        (.closing :: tokens, stop)
  | fails (call : Call) {tokens : List Token} (needs : call.NeedsMore tokens)
      (position : Nat) (c : Char) :
      Comes call (tokens, some (.unexpectedChar position c))
        (.error (.unreadable (.unexpectedChar position c))) tokens ([], none)
  | ends (call : Call) : Comes call ([], none) (.ok none) [] ([], none)
  | unmatched {tokens : List Token} (short : Outline.unclosed.Fits tokens) :
      Comes parse (tokens, none) (.error (.unreadable .unmatchedOpening)) tokens ([], none)

variable {limit : Option Nat} {stream : TokenStream} {stop : Option SyntaxFault} {call : Call}

lemma comes_nil (call : Call) (hstream : stream.outlook = ([], stop))
    (needs : call.NeedsMore []) :
    Comes call ([], stop) (((ending stop).mapError .unreadable).map (Option.map .token)) []
      ([], none) := by
  cases stop with
  | none => exact .ends call
  | some fault =>
    obtain ⟨position, c, rfl⟩ := stray_of_outlook hstream
    exact .fails call needs position c

lemma comes_parse (nested : Nested limit 0 stream.left) :
    Comes parse stream.outlook (parse.reply limit stream) (parse.taken limit stream)
      (parse.after limit stream).outlook := by
  obtain ⟨tokens, stop, hstream⟩ : ∃ tokens stop, stream.outlook = (tokens, stop) := ⟨_, _, rfl⟩
  have hleft : stream.left = tokens := congrArg Prod.fst hstream
  rw [hleft] at nested
  rw [reply, taken, after, TokenStream.parse, parseWithin_eq, hstream]
  obtain ⟨outline, fits⟩ := Outline.exists_fits tokens
  cases fits with
  | closing tokens =>
    obtain ⟨rest, hrest, htake⟩ := takeWithin_unexpected limit hstream
    rw [htake, hrest]
    exact .closing tokens stop
  | followed whole t tokens =>
    obtain ⟨rest, hrest, htake⟩ := takeWithin_form whole hstream nested
    rw [htake, hrest]
    exact .parse whole (t :: tokens) stop
  | complete whole =>
    rw [← List.append_nil tokens] at hstream nested
    obtain ⟨rest, hrest, htake⟩ := takeWithin_form whole hstream nested
    have hcomes := Comes.parse whole [] stop
    rw [List.append_nil] at hcomes
    rwa [htake, hrest]
  | empty =>
    obtain ⟨rest, hrest, htake⟩ := takeWithin_nil limit [] hstream
    rw [htake, hrest]
    cases stop <;> exact comes_nil parse hstream (.inl .empty)
  | unclosed begun short whole =>
    have short := Outline.Fits.unclosed begun short whole
    obtain ⟨rest, hrest, htake⟩ :=
      takeWithin_unclosed (Outline.within_of_fits short) stream hstream nested
    rw [htake, hrest]
    cases stop with
    | none => exact .unmatched short
    | some fault =>
      obtain ⟨position, c, rfl⟩ := stray_of_outlook hstream
      exact .fails parse (.inr short) position c

/-- Everything that a call can come to. -/
theorem comes (call : Call) (nested : Nested limit 0 stream.left) :
    Comes call stream.outlook (call.reply limit stream) (call.taken limit stream)
      (call.after limit stream).outlook := by
  obtain ⟨tokens, stop, hstream⟩ : ∃ tokens stop, stream.outlook = (tokens, stop) := ⟨_, _, rfl⟩
  cases call with
  | parse => exact comes_parse nested
  | peek =>
    rw [reply, taken, after, hstream]
    cases tokens with
    | cons t tokens =>
      obtain ⟨rest, hpeek, hrest, -⟩ := peek_of_cons hstream
      rw [hpeek, hrest]
      exact .peek t tokens stop
    | nil =>
      obtain ⟨rest, hpeek, hrest, -⟩ := peek_of_nil hstream
      rw [hpeek, hrest]
      exact comes_nil peek hstream rfl
  | advance =>
    rw [reply, taken, after, hstream, advance_eq]
    cases tokens with
    | cons t tokens =>
      obtain ⟨rest, hpeek, -, hrest⟩ := peek_of_cons hstream
      rw [hpeek, hrest]
      exact .advance t tokens stop
    | nil =>
      obtain ⟨rest, hpeek, -, hrest⟩ := peek_of_nil hstream
      rw [hpeek, hrest]
      cases stop <;> exact comes_nil advance hstream rfl

namespace Comes

variable {before after : List Token × Option SyntaxFault} {found : Except Fault (Option Found)}
  {taken : List Token}

/-- A call takes its tokens from the front of those left. -/
lemma left_eq (h : Comes call before found taken after) : before.1 = taken ++ after.1 := by
  cases h <;> simp

lemma not_needsMore_of_form {form : List Token} {tree : SExpr} (whole : Forms form [tree])
    (more : List Token) : ¬ Call.parse.NeedsMore (form ++ more) := by
  have hwithin := Outline.within_form whole more
  rintro (h | h) <;> rw [Outline.within_of_fits h] at hwithin <;> cases more <;> cases hwithin

lemma not_needsMore_of_closing (tokens : List Token) :
    ¬ Call.parse.NeedsMore (.closing :: tokens) := by
  rintro (h | h) <;> cases Outline.within_of_fits h

/-- The tokens left suffice, and the source is not asked for what stands behind them. Or they do
not, and nothing remains. -/
lemma needsMore_cases (h : Comes call before found taken after) :
    ¬ call.NeedsMore before.1 ∧ after.2 = before.2 ∨
      call.NeedsMore before.1 ∧ after = ([], none) := by
  cases h with
  | peek t tokens stop => exact .inl ⟨nofun, rfl⟩
  | advance t tokens stop => exact .inl ⟨nofun, rfl⟩
  | parse whole more stop => exact .inl ⟨not_needsMore_of_form whole more, rfl⟩
  | closing tokens stop => exact .inl ⟨not_needsMore_of_closing tokens, rfl⟩
  | fails call needs position c => exact .inr ⟨needs, rfl⟩
  | ends call =>
    refine .inr ⟨?_, rfl⟩
    cases call with
    | parse => exact .inl .empty
    | _ => rfl
  | unmatched short => exact .inr ⟨.inr short, rfl⟩

/-- A stray character is reported just where the tokens left do not suffice. -/
lemma stray_iff (h : Comes call before found taken after) {position : Nat} {c : Char} :
    found = .error (.unreadable (.unexpectedChar position c)) ↔
      before.2 = some (.unexpectedChar position c) ∧ call.NeedsMore before.1 := by
  constructor
  · rintro rfl
    cases h with
    | fails call needs position c => exact ⟨rfl, needs⟩
  · rintro ⟨hstop, needs⟩
    cases h with
    | peek t tokens stop => cases needs
    | advance t tokens stop => cases needs
    | parse whole more stop => exact absurd needs (not_needsMore_of_form whole more)
    | closing tokens stop => exact absurd needs (not_needsMore_of_closing tokens)
    | fails call _ position c => cases hstop; rfl
    | ends call => cases hstop
    | unmatched short => cases hstop

lemma form_of_tree {tree : SExpr}
    (h : Comes Call.parse before (.ok (some (.tree tree))) taken after) : Forms taken [tree] := by
  cases h with
  | parse whole more stop => exact whole

lemma of_unexpectedClosing
    (h : Comes Call.parse before (.error (.unreadable .unexpectedClosing)) taken after) :
    taken = [] ∧ after = before := by
  cases h with
  | closing tokens stop => exact ⟨rfl, rfl⟩

lemma of_unmatchedOpening
    (h : Comes Call.parse before (.error (.unreadable .unmatchedOpening)) taken after) :
    taken = before.1 ∧ after = ([], none) := by
  cases h with
  | unmatched short => exact ⟨rfl, rfl⟩

lemma found_of_nil (h : Comes call before found taken after) (hbefore : before = ([], none)) :
    found = .ok none := by
  subst hbefore
  generalize hnone : (([], none) : List Token × Option SyntaxFault) = before at h
  cases h with
  | parse whole more stop =>
    obtain ⟨hnil, -⟩ := Prod.mk.inj hnone
    obtain ⟨rfl, rfl⟩ := List.append_eq_nil_iff.mp hnil.symm
    cases whole
  | unmatched short =>
    cases hnone
    cases short with
    | unclosed begun _ _ => exact absurd rfl begun
  | ends call => rfl
  | _ => cases hnone

end Comes

/-- The calls that are made one after another, each with the stream that it is made on. -/
def history (limit : Option Nat) (stream : TokenStream) : List Call → List (Call × TokenStream)
  | [] => []
  | call :: calls => (call, stream) :: history limit (call.after limit stream) calls

def afterAll (limit : Option Nat) (stream : TokenStream) : List Call → TokenStream
  | [] => stream
  | call :: calls => afterAll limit (call.after limit stream) calls

def takenByAll (limit : Option Nat) (stream : TokenStream) (calls : List Call) : List Token :=
  (history limit stream calls).flatMap fun made => made.1.taken limit made.2

lemma nestedThroughout_after (h : NestedThroughout limit stream.left) (call : Call) :
    NestedThroughout limit (call.after limit stream).left := by
  have hleft : stream.left = call.taken limit stream ++ (call.after limit stream).left :=
    (comes call h.nested).left_eq
  exact h.suffix ⟨_, hleft.symm⟩

lemma nested_of_mem_history (calls : List Call) (h : NestedThroughout limit stream.left) :
    ∀ made ∈ history limit stream calls, Nested limit 0 made.2.left := by
  induction calls generalizing stream with
  | nil => nofun
  | cons call calls ih =>
    intro made hmade
    rcases List.mem_cons.mp hmade with rfl | hmade
    · exact h.nested
    · exact ih (nestedThroughout_after h call) made hmade

/-- No token is lost or taken twice. -/
theorem takenByAll_append_left (calls : List Call) (h : NestedThroughout limit stream.left) :
    takenByAll limit stream calls ++ (afterAll limit stream calls).left = stream.left := by
  induction calls generalizing stream with
  | nil => rfl
  | cons call calls ih =>
    have hleft : stream.left = call.taken limit stream ++ (call.after limit stream).left :=
      (comes call h.nested).left_eq
    rw [hleft, ← ih (nestedThroughout_after h call), takenByAll, history, List.flatMap_cons,
      List.append_assoc]
    rfl

/-- As long as the tokens left suffice, the source is not asked for what stands behind them. As soon
as they do not, nothing remains. -/
theorem needsMore_afterAll (calls : List Call) (h : NestedThroughout limit stream.left) :
    (∀ made ∈ history limit stream calls, ¬ made.1.NeedsMore made.2.left) ∧
        (afterAll limit stream calls).outlook.2 = stream.outlook.2 ∨
      (∃ made ∈ history limit stream calls, made.1.NeedsMore made.2.left) ∧
        (afterAll limit stream calls).outlook = ([], none) := by
  induction calls generalizing stream with
  | nil => exact .inl ⟨nofun, rfl⟩
  | cons call calls ih =>
    rw [history, afterAll, List.forall_mem_cons, List.exists_mem_cons_iff]
    rcases (comes call h.nested).needsMore_cases with ⟨enough, hstop⟩ | ⟨needs, hafter⟩
    · rw [← hstop]
      rcases ih (nestedThroughout_after h call) with ⟨hall, hrest⟩ | ⟨hsome, hrest⟩
      · exact .inl ⟨⟨enough, hall⟩, hrest⟩
      · exact .inr ⟨.inr hsome, hrest⟩
    · refine .inr ⟨.inl needs, ?_⟩
      have hleft : (afterAll limit (call.after limit stream) calls).left = [] := by
        have hkept := takenByAll_append_left calls (nestedThroughout_after h call)
        rw [show (call.after limit stream).left = [] from congrArg Prod.fst hafter] at hkept
        exact (List.append_eq_nil_iff.mp hkept).2
      rcases ih (nestedThroughout_after h call) with ⟨-, hrest⟩ | ⟨-, hrest⟩
      · exact Prod.ext hleft (hrest.trans (congrArg Prod.snd hafter))
      · exact hrest

end Call

end TokenStream

open TokenStream.Call in
/-- Let any calls be made on the stream of a text whose lists are nested no deeper than the limit.
The tokens that they took, the one looked at and those that the source still gives are the tokens of
the text. To look takes none, and shows the next. The fault of the text is reported by the first
call that the tokens left do not suffice for, and behind it every call finds the end. An expression
is read from its own tokens; where a `)` stands in front none is taken, and where one is missing
all. -/
theorem stream_accounts_for_tokens (limit : Option Nat) (text : String)
    (calls : List TokenStream.Call)
    (nested : NestedThroughout limit (Source.ofString text).tokens.1) :
    let start := TokenStream.ofString text
    let tokens := (Source.ofString text).tokens.1
    let earlier := history limit start calls
    let stream := afterAll limit start calls
    let taken := takenByAll limit start calls
    taken ++ (stream.buffer.toList ++ stream.source.tokens.1) = tokens ∧
    (∀ t, stream.peek.1 = .ok (some t) ↔ tokens[taken.length]? = some t) ∧
    stream.peek.2.left = stream.left ∧
    (∀ call : TokenStream.Call, ∀ position c,
      call.reply limit stream = .error (.unreadable (.unexpectedChar position c)) ↔
        (Source.ofString text).tokens.2 = some (.unexpectedChar position c) ∧
          call.NeedsMore stream.left ∧ ∀ made ∈ earlier, ¬ made.1.NeedsMore made.2.left) ∧
    (∀ made ∈ earlier, ∀ position c,
      made.1.reply limit made.2 = .error (.unreadable (.unexpectedChar position c)) →
        ∀ call : TokenStream.Call, call.reply limit stream = .ok none) ∧
    (∀ tree, (stream.parse limit).1 = .ok (some tree) →
      Forms (parse.taken limit stream) [tree]) ∧
    ((stream.parse limit).1 = .error (.unreadable .unexpectedClosing) →
      parse.taken limit stream = [] ∧ (stream.parse limit).2.left = stream.left) ∧
    ((stream.parse limit).1 = .error (.unreadable .unmatchedOpening) →
      parse.taken limit stream = stream.left ∧ (stream.parse limit).2.left = []) := by
  intro start tokens earlier stream taken
  have hstart : NestedThroughout limit start.left := nested
  have hkept : taken ++ stream.left = tokens := takenByAll_append_left calls hstart
  have hnested : Nested limit 0 stream.left := (hstart.suffix ⟨taken, hkept⟩).nested
  have hnext : tokens[taken.length]? = stream.left.head? := by
    rw [← hkept, List.getElem?_append_right (Nat.le_refl _), Nat.sub_self, List.head?_eq_getElem?]
  have hparse : ∀ {found}, (stream.parse limit).1 = found →
      Comes parse stream.outlook (found.map (Option.map .tree)) (parse.taken limit stream)
        (stream.parse limit).2.outlook := by
    rintro _ rfl
    exact comes parse hnested
  refine ⟨hkept, ?_, ?_, ?_, ?_, ?_, ?_, ?_⟩
  · intro t
    rw [hnext]
    exact TokenStream.peek_eq_some_iff
  · exact (comes peek hnested).left_eq.symm
  · intro call position c
    rw [(comes call hnested).stray_iff]
    rcases needsMore_afterAll calls hstart with ⟨hall, hstop⟩ | ⟨⟨made, hmade, needs⟩, hrest⟩
    · have hstop : stream.outlook.2 = (Source.ofString text).tokens.2 := hstop
      rw [hstop]
      exact ⟨fun ⟨hfault, needs⟩ => ⟨hfault, needs, hall⟩,
        fun ⟨hfault, needs, _⟩ => ⟨hfault, needs⟩⟩
    · have hstop : stream.outlook.2 = none := congrArg Prod.snd hrest
      rw [hstop]
      exact ⟨fun h => absurd h.1 (by simp), fun h => absurd needs (h.2.2 made hmade)⟩
  · intro made hmade position c hreply call
    have hneeds : made.1.NeedsMore made.2.left :=
      ((comes made.1 (nested_of_mem_history calls hstart made hmade)).stray_iff.mp hreply).2
    rcases needsMore_afterAll calls hstart with ⟨hall, -⟩ | ⟨-, hrest⟩
    · exact absurd hneeds (hall made hmade)
    · exact (comes call hnested).found_of_nil hrest
  · intro tree htree
    exact (hparse htree).form_of_tree
  · intro hclosing
    obtain ⟨hnone, hrest⟩ := (hparse hclosing).of_unexpectedClosing
    exact ⟨hnone, congrArg Prod.fst hrest⟩
  · intro hopening
    obtain ⟨hall, hrest⟩ := (hparse hopening).of_unmatchedOpening
    exact ⟨hall, congrArg Prod.fst hrest⟩

open TokenStream.Call in
/-- A `)` is passed by, and a list is not closed in front of a stray character. -/
theorem stream_accounts_up_to_stray :
    let start := TokenStream.ofString "(a b) c) (d #"
    let calls := [peek, parse, parse, parse, advance, parse]
    takenByAll (some 1) start calls = [.opening, .atom "a", .atom "b", .closing, .atom "c",
      .closing, .opening, .atom "d"] ∧
    ∀ call : TokenStream.Call, call.reply (some 1) (afterAll (some 1) start calls) = .ok none := by
  intro start calls
  have htokens : (Source.ofString "(a b) c) (d #").tokens.1 = [.opening, .atom "a", .atom "b",
      .closing, .atom "c", .closing, .opening, .atom "d"] := by decide +kernel
  have nested : NestedThroughout (some 1) (Source.ofString "(a b) c) (d #").tokens.1 := by
    decide +kernel
  obtain ⟨hkept, -, -, -, hsilent, -⟩ :=
    stream_accounts_for_tokens (some 1) "(a b) c) (d #" calls nested
  have hnone : (afterAll (some 1) start calls).left = [] := by decide +kernel
  refine ⟨?_, ?_⟩
  · rw [← htokens, ← hkept, show _ ++ _ = [] from hnone, List.append_nil]
  · -- the last of the calls reports the stray character
    have hlast : (history (some 1) start calls).getLast? =
        some (parse, afterAll (some 1) start [peek, parse, parse, parse, advance]) := rfl
    exact hsilent _ (List.mem_of_getLast? hlast) 12 '#' (by decide +kernel)

end Evlis
