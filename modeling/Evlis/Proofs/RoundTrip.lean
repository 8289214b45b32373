import Evlis.Printer
import Evlis.Reader
import Mathlib.Data.List.TakeWhile

/-!
# Reading what was printed

A tree is readable when its atoms have the names that texts can spell and every chain of pairs in
it ends in `nil`. Readable trees are exactly what reading gives, and a readable tree is read back
from its printed form. So every text has a canonical text, which stands for the same tree and is
its own canonical text.
-/

namespace Evlis

namespace SExpr

/-- The names that a text can spell. -/
def IsName (name : String) : Prop :=
  name ≠ "" ∧ ∀ c ∈ name.toList, Token.isNameChar c = true

instance (name : String) : Decidable (IsName name) :=
  have := List.decidableBAll (fun c => Token.isNameChar c = true) name.toList
  inferInstanceAs (Decidable (name ≠ "" ∧ ∀ c ∈ name.toList, Token.isNameChar c = true))

/-- What stands behind the last pair of a chain. -/
def ending : SExpr → SExpr
  | .pair _ cdr => ending cdr
  | e => e

/-- The trees that texts stand for. -/
def Readable : SExpr → Prop
  | .atom name => IsName name
  | .pair car cdr => car.Readable ∧ cdr.Readable ∧ cdr.ending = nil

instance decidableReadable : (e : SExpr) → Decidable e.Readable
  | .atom name => inferInstanceAs (Decidable (IsName name))
  | .pair car cdr =>
    have := decidableReadable car
    have := decidableReadable cdr
    inferInstanceAs (Decidable (_ ∧ _ ∧ _))

/-- How deep lists are nested in a tree. -/
def depth : SExpr → Nat
  | .atom _ => 0
  | .pair car cdr => max (car.depth + 1) cdr.depth

/-- A nesting of lists that the limit admits. -/
def Shallow (limit : Option Nat) (depth : Nat) : Prop := ∀ n ∈ limit, depth ≤ n

instance (limit : Option Nat) (depth : Nat) : Decidable (Shallow limit depth) :=
  match limit with
  | none => isTrue (by intro n hn; cases hn)
  | some n => decidable_of_iff (depth ≤ n) (by simp [Shallow])

lemma Shallow.mono {limit : Option Nat} {m n : Nat} (h : Shallow limit n) (hle : m ≤ n) :
    Shallow limit m := by
  intro k hk
  exact Nat.le_trans hle (h k hk)

lemma Shallow.pred {limit : Option Nat} {n : Nat} (h : Shallow limit (n + 1)) :
    limit ≠ some 0 ∧ Shallow (limit.map Nat.pred) n := by
  refine ⟨?_, ?_⟩
  · rintro rfl
    exact Nat.not_succ_le_zero n (h 0 rfl)
  · intro m hm
    obtain ⟨k, hk, rfl⟩ := Option.map_eq_some_iff.mp hm
    exact Nat.le_pred_of_lt (h k hk)

lemma readable_ofReversed {tail : SExpr} (elements : List SExpr)
    (helements : ∀ e ∈ elements, e.Readable) (htail : tail.Readable)
    (hending : tail.ending = nil) : (ofReversed elements tail).Readable := by
  induction elements generalizing tail with
  | nil => exact htail
  | cons e elements ih =>
    have hpair : (pair e tail).Readable := ⟨helements e (by simp), htail, hending⟩
    exact ih (fun e he => helements e (by simp [he])) hpair hending

lemma depth_ofReversed_le {tail : SExpr} {n : Nat} (elements : List SExpr)
    (helements : ∀ e ∈ elements, e.depth + 1 ≤ n) (htail : tail.depth ≤ n) :
    (ofReversed elements tail).depth ≤ n := by
  induction elements generalizing tail with
  | nil => exact htail
  | cons e elements ih =>
    have hpair : (pair e tail).depth ≤ n := by
      rw [depth]
      exact Nat.max_le.mpr ⟨helements e (by simp), htail⟩
    exact ih (fun e he => helements e (by simp [he])) hpair

/-- A limit on printing is a limit on the depth of the tree. -/
lemma obstacle_eq_none (limit : Option Nat) (e : SExpr) (h : Shallow limit e.depth) :
    (Value.ofSExpr e).obstacle limit = none := by
  induction e generalizing limit with
  | atom name => rfl
  | pair car cdr ihCar ihCdr =>
    rw [depth] at h
    obtain ⟨hroom, hcar⟩ := (h.mono (Nat.le_max_left _ _)).pred
    rw [Value.ofSExpr_pair, Value.obstacle, if_neg hroom, ihCar _ hcar]
    exact ihCdr limit (h.mono (Nat.le_max_right _ _))

lemma print_eq_text (limits : Limits) (e : SExpr) (h : Shallow limits.nesting e.depth) :
    (Value.ofSExpr e).print limits = .ok (Value.ofSExpr e).text := by
  rw [Value.print, obstacle_eq_none _ _ h]

end SExpr

open SExpr

/-- No name goes on into the text. -/
def Delimited (rest : List Char) : Prop := ∀ c ∈ rest.head?, Token.isNameChar c = false

namespace Source

lemma not_space_of_nameChar {c : Char} (h : Token.isNameChar c = true) :
    Token.isSpace c = false := by
  by_contra hspace
  simp only [Token.isSpace, Bool.not_eq_false, Bool.or_eq_true, decide_eq_true_eq] at hspace
  obtain ((rfl | rfl) | rfl) | rfl := hspace <;> exact absurd h (by decide)

lemma head_opening {s : Source} {rest : List Char} (h : s.rest = '(' :: rest) :
    s.head = .token .opening ⟨s.position + 1, rest⟩ := by
  simp [head, h]

/-- A name is cut off where the delimiter stands, and not before. -/
lemma head_name {s : Source} {name : String} {rest : List Char} (hname : IsName name)
    (hrest : Delimited rest) (h : s.rest = name.toList ++ rest) :
    ∃ position, s.head = .token (.atom name) ⟨position, rest⟩ := by
  obtain ⟨hne, hall⟩ := hname
  obtain ⟨c, cs, hcs⟩ : ∃ c cs, name.toList = c :: cs := by
    cases hlist : name.toList with
    | nil => exact absurd (String.toList_eq_nil_iff.mp hlist) hne
    | cons c cs => exact ⟨c, cs, rfl⟩
  rw [hcs] at h hall
  have hc : Token.isNameChar c = true := hall c (by simp)
  have hopen : c ≠ '(' := by rintro rfl; exact absurd hc (by decide)
  have hclose : c ≠ ')' := by rintro rfl; exact absurd hc (by decide)
  have htail : ∀ d ∈ cs, Token.isNameChar d = true := fun d hd => hall d (by simp [hd])
  have hstop : rest.takeWhile Token.isNameChar = [] ∧ rest.dropWhile Token.isNameChar = rest := by
    cases rest with
    | nil => exact ⟨rfl, rfl⟩
    | cons d rest =>
      have hd : Token.isNameChar d = false := hrest d rfl
      exact ⟨by rw [List.takeWhile_cons, hd]; rfl, by rw [List.dropWhile_cons, hd]; rfl⟩
  have htake : (cs ++ rest).takeWhile Token.isNameChar = cs := by
    rw [List.takeWhile_append_of_pos htail, hstop.1, List.append_nil]
  have hdrop : (cs ++ rest).dropWhile Token.isNameChar = rest := by
    rw [List.dropWhile_append_of_pos htail, hstop.2]
  have hspelled : String.ofList (c :: cs) = name := by
    rw [← hcs, String.ofList_toList]
  refine ⟨s.position + (c :: cs).length, ?_⟩
  simp only [head, h, List.cons_append, if_neg hopen, if_neg hclose, if_pos hc, htake, hdrop,
    hspelled]

lemma isName_of_next {s after : Source} {name : String}
    (h : s.next = .token (.atom name) after) : IsName name := by
  rw [next, head] at h
  split at h
  · cases h
  · rename_i c rest _
    split at h
    · cases h
    · split at h
      · cases h
      · split at h
        · rename_i hc
          cases h
          refine ⟨?_, ?_⟩
          · simp
          · intro d hd
            rw [String.toList_ofList, List.mem_cons] at hd
            obtain rfl | hd := hd
            · exact hc
            · exact List.mem_takeWhile_imp hd
        · cases h

end Source

namespace TokenStream

/-- Reading goes on with the unfinished lists, or is over. -/
def proceed (limit : Option Nat) (stream : TokenStream) :
    SExpr ⊕ List (List SExpr) → Except Fault (Option SExpr) × TokenStream
  | .inl e => (.ok (some e), stream)
  | .inr unfinished => parseWithin limit unfinished stream

variable {limit : Option Nat} {unfinished outer : List (List SExpr)} {source after : Source}

lemma peek_of_next {t : Token} (h : source.next = .token t after) :
    (⟨source, none⟩ : TokenStream).peek = (.ok (some t), ⟨after, some t⟩) := by
  simp [peek, pull, h]

lemma parseWithin_atom {name : String} (h : source.next = .token (.atom name) after) :
    parseWithin limit unfinished ⟨source, none⟩ =
      proceed limit ⟨after, none⟩ (place (.atom name) unfinished) := by
  rw [parseWithin]
  split <;> rename_i hpeek <;> rw [peek_of_next h] at hpeek <;> cases hpeek
  cases place (.atom name) unfinished <;> rfl

lemma parseWithin_opening (h : source.next = .token .opening after) :
    parseWithin limit unfinished ⟨source, none⟩ =
      if atLimit limit unfinished.length then (.error .tooDeep, ⟨after, none⟩)
      else parseWithin limit ([] :: unfinished) ⟨after, none⟩ := by
  rw [parseWithin]
  split <;> rename_i hpeek <;> rw [peek_of_next h] at hpeek <;> cases hpeek
  rfl

lemma parseWithin_closing {elements : List SExpr} (h : source.next = .token .closing after) :
    parseWithin limit (elements :: outer) ⟨source, none⟩ =
      proceed limit ⟨after, none⟩ (place (.ofReversed elements .nil) outer) := by
  rw [parseWithin]
  split <;> rename_i hpeek <;> rw [peek_of_next h] at hpeek <;> cases hpeek
  simp only [drop]
  cases place (.ofReversed elements .nil) outer <;> rfl

end TokenStream

namespace SExpr

def chars (e : SExpr) : List Char := (Value.ofSExpr e).text.toList

def charsRest (e : SExpr) : List Char := (Value.ofSExpr e).textRest.toList

@[simp]
lemma chars_atom (name : String) : (atom name).chars = name.toList := by
  simp [chars, Value.text, Value.write]

@[simp]
lemma chars_pair (car cdr : SExpr) :
    (pair car cdr).chars = '(' :: (car.chars ++ cdr.charsRest) := by
  simp [chars, charsRest]

@[simp]
lemma charsRest_nil : nil.charsRest = [')'] := by
  simp [charsRest, nil, Value.textRest, Value.writeRest]

@[simp]
lemma charsRest_pair (car cdr : SExpr) :
    (pair car cdr).charsRest = ' ' :: (car.chars ++ cdr.charsRest) := by
  simp [chars, charsRest]

lemma delimited_charsRest {e : SExpr} (h : e.ending = nil) (rest : List Char) :
    Delimited (e.charsRest ++ rest) := by
  intro c hc
  cases e with
  | atom name =>
    have hname : atom name = nil := h
    rw [hname, charsRest_nil] at hc
    cases hc
    decide
  | pair car cdr =>
    rw [charsRest_pair] at hc
    cases hc
    decide

/-- White space in front of a printed form is skipped, and nothing of the form is. -/
lemma dropWhile_chars {e : SExpr} (h : e.Readable) (rest : List Char) :
    (e.chars ++ rest).dropWhile Token.isSpace = e.chars ++ rest := by
  cases e with
  | atom name =>
    obtain ⟨hne, hall⟩ := h
    rw [chars_atom]
    cases hlist : name.toList with
    | nil => exact absurd (String.toList_eq_nil_iff.mp hlist) hne
    | cons c cs =>
      have hc : Token.isSpace c = false :=
        Source.not_space_of_nameChar (hall c (by simp [hlist]))
      rw [List.cons_append, List.dropWhile_cons, hc]
      rfl
  | pair car cdr =>
    rw [chars_pair, List.cons_append, List.dropWhile_cons]
    rfl

end SExpr

namespace TokenStream

lemma not_atLimit {limit : Option Nat} {n : Nat} (h : Shallow limit (n + 1)) :
    atLimit limit n = false := by
  cases limit with
  | none => rfl
  | some m =>
    have := h m rfl
    simp only [atLimit, decide_eq_false_iff_not]
    omega

/-- A printed tree takes its place among the unfinished lists, and the printed rest of a list ends
the innermost of them. -/
lemma parseWithin_chars (limit : Option Nat) (e : SExpr) (hread : e.Readable) :
    (∀ unfinished (source : Source) rest, Delimited rest →
      Shallow limit (e.depth + unfinished.length) →
      source.skipSpace.rest = e.chars ++ rest →
      ∃ position, parseWithin limit unfinished ⟨source, none⟩ =
        proceed limit ⟨⟨position, rest⟩, none⟩ (place e unfinished)) ∧
    (e.ending = .nil → ∀ elements outer position rest,
      Shallow limit (e.depth + outer.length) → Shallow limit (outer.length + 1) →
      ∃ position', parseWithin limit (elements :: outer)
          ⟨⟨position, e.charsRest ++ rest⟩, none⟩ =
        proceed limit ⟨⟨position', rest⟩, none⟩ (place (.ofReversed elements e) outer)) := by
  induction e with
  | atom name =>
    refine ⟨?_, ?_⟩
    · intro unfinished source rest hrest _ hsource
      rw [chars_atom] at hsource
      obtain ⟨position, hhead⟩ := Source.head_name hread hrest hsource
      exact ⟨position, parseWithin_atom hhead⟩
    · intro hending elements outer position rest _ _
      have hname : SExpr.atom name = .nil := hending
      rw [hname, charsRest_nil]
      have hnext : (⟨position, [')'] ++ rest⟩ : Source).next =
          .token .closing ⟨position + 1, rest⟩ := rfl
      exact ⟨position + 1, parseWithin_closing hnext⟩
  | pair car cdr ihCar ihCdr =>
    obtain ⟨hcar, hcdr, hending⟩ := hread
    obtain ⟨parseCar, -⟩ := ihCar hcar
    have parseRest := (ihCdr hcdr).2 hending
    refine ⟨?_, ?_⟩
    · intro unfinished source rest hrest hdepth hsource
      rw [depth] at hdepth
      rw [chars_pair] at hsource
      have hopen : source.next = .token .opening
          ⟨source.skipSpace.position + 1, car.chars ++ (cdr.charsRest ++ rest)⟩ :=
        Source.head_opening (by rw [hsource, List.cons_append, List.append_assoc])
      have hroom : Shallow limit (unfinished.length + 1) := hdepth.mono (by omega)
      rw [parseWithin_opening hopen, not_atLimit hroom]
      obtain ⟨between, hfirst⟩ := parseCar ([] :: unfinished)
        ⟨source.skipSpace.position + 1, car.chars ++ (cdr.charsRest ++ rest)⟩
        (cdr.charsRest ++ rest) (delimited_charsRest hending rest)
        (hdepth.mono (by simp only [List.length_cons]; omega)) (dropWhile_chars hcar _)
      obtain ⟨position, hothers⟩ := parseRest [car] unfinished between rest
        (hdepth.mono (by omega)) hroom
      refine ⟨position, ?_⟩
      rw [if_neg Bool.false_ne_true, hfirst]
      exact hothers
    · intro _ elements outer position rest hdepth hroom
      rw [depth] at hdepth
      rw [charsRest_pair, List.cons_append, List.append_assoc]
      obtain ⟨between, hfirst⟩ := parseCar (elements :: outer)
        ⟨position, ' ' :: (car.chars ++ (cdr.charsRest ++ rest))⟩
        (cdr.charsRest ++ rest) (delimited_charsRest hending rest)
        (hdepth.mono (by simp only [List.length_cons]; omega)) (dropWhile_chars hcar _)
      obtain ⟨position', hothers⟩ := parseRest (car :: elements) outer between rest
        (hdepth.mono (by omega)) hroom
      refine ⟨position', ?_⟩
      rw [hfirst]
      exact hothers

end TokenStream

lemma read_text (limit : Option Nat) (e : SExpr) (hread : e.Readable)
    (hdepth : Shallow limit e.depth) : read limit (Value.ofSExpr e).text = .ok e := by
  have hchars : (Source.ofString (Value.ofSExpr e).text).skipSpace.rest = e.chars ++ [] := by
    have hdrop := dropWhile_chars hread []
    rw [List.append_nil] at hdrop
    rw [List.append_nil]
    exact hdrop
  have hend : Delimited [] := by intro c hc; cases hc
  obtain ⟨position, hparse⟩ :=
    (TokenStream.parseWithin_chars limit e hread).1 [] _ [] hend hdepth hchars
  rw [read, TokenStream.parse, TokenStream.ofString, hparse]
  rfl

namespace TokenStream

/-- The token that is looked at spells a name wherever it is one. -/
def Spelled (stream : TokenStream) : Prop := ∀ name, stream.buffer = some (.atom name) → IsName name

def Admits (limit : Option Nat) : List (List SExpr) → Prop
  | [] => True
  | elements :: outer =>
    (∀ e ∈ elements, e.Readable ∧ Shallow limit (e.depth + 1 + outer.length)) ∧
      Shallow limit (1 + outer.length) ∧ Admits limit outer

lemma shallow_of_not_atLimit {limit : Option Nat} {n : Nat} (h : ¬ atLimit limit n = true) :
    Shallow limit (1 + n) := by
  rintro m rfl
  simp only [atLimit, decide_eq_true_eq] at h
  omega

lemma isName_of_peek {stream rest : TokenStream} {name : String} (hbuffer : stream.Spelled)
    (h : stream.peek = (.ok (some (.atom name)), rest)) : IsName name := by
  obtain ⟨source, buffer⟩ := stream
  cases buffer with
  | some t =>
    simp only [peek, Prod.mk.injEq, Except.ok.injEq, Option.some.injEq] at h
    exact hbuffer name (by rw [h.1])
  | none =>
    simp only [peek, pull] at h
    cases hnext : source.next with
    | finish => simp [hnext] at h
    | stray position c => simp [hnext] at h
    | token t after =>
      simp only [hnext, Prod.mk.injEq, Except.ok.injEq, Option.some.injEq] at h
      rw [h.1] at hnext
      exact Source.isName_of_next hnext

/-- A list that is closed is readable, and no deeper than the limit says. -/
lemma readable_close {limit : Option Nat} {elements : List SExpr} {outer : List (List SExpr)}
    (h : Admits limit (elements :: outer)) :
    (SExpr.ofReversed elements .nil).Readable ∧
      Shallow limit ((SExpr.ofReversed elements .nil).depth + outer.length) := by
  obtain ⟨helements, hroom, -⟩ := h
  refine ⟨?_, ?_⟩
  · have hnil : SExpr.nil.Readable := by decide
    exact readable_ofReversed elements (fun e he => (helements e he).1) hnil rfl
  · rintro n rfl
    have hlen := hroom n rfl
    have hdepth : (SExpr.ofReversed elements .nil).depth ≤ n - outer.length := by
      refine depth_ofReversed_le elements (fun e he => ?_) (Nat.zero_le _)
      have := (helements e he).2 n rfl
      omega
    omega

lemma eq_of_place_inl {unfinished : List (List SExpr)} {e e' : SExpr}
    (h : place e unfinished = .inl e') : unfinished = [] ∧ e' = e := by
  cases unfinished with
  | nil => cases h; exact ⟨rfl, rfl⟩
  | cons elements outer => cases h

lemma admits_of_place_inr {limit : Option Nat} {unfinished unfinished' : List (List SExpr)}
    {e : SExpr} (hread : e.Readable) (hdepth : Shallow limit (e.depth + unfinished.length))
    (hinv : Admits limit unfinished) (h : place e unfinished = .inr unfinished') :
    Admits limit unfinished' := by
  cases unfinished with
  | nil => cases h
  | cons elements outer =>
    cases h
    obtain ⟨helements, hroom, houter⟩ := hinv
    refine ⟨?_, hroom, houter⟩
    intro e' he'
    obtain rfl | he' := List.mem_cons.mp he'
    · exact ⟨hread, hdepth.mono (by simp only [List.length_cons]; omega)⟩
    · exact helements e' he'

lemma shallow_atom {limit : Option Nat} {unfinished : List (List SExpr)} (name : String)
    (hinv : Admits limit unfinished) :
    Shallow limit ((SExpr.atom name).depth + unfinished.length) := by
  cases unfinished with
  | nil => intro n _; exact Nat.zero_le n
  | cons elements outer =>
    exact hinv.2.1.mono (by simp only [depth, List.length_cons]; omega)

lemma spelled_drop (stream : TokenStream) : stream.drop.Spelled := by
  intro name h
  cases h

/-- What is read in the end is readable if all that was read so far is. -/
lemma readable_of_parseWithin (limit : Option Nat) (unfinished : List (List SExpr))
    (stream : TokenStream) (e : SExpr) (rest : TokenStream) (hbuffer : stream.Spelled)
    (hinv : Admits limit unfinished)
    (h : parseWithin limit unfinished stream = (.ok (some e), rest)) :
    e.Readable ∧ Shallow limit e.depth := by
  fun_induction parseWithin limit unfinished stream with
  | case1 => cases h
  | case2 => cases h
  | case3 => cases h
  | case4 unfinished stream name rest' hpeek _ e' hplace =>
    cases h
    obtain ⟨rfl, rfl⟩ := eq_of_place_inl hplace
    exact ⟨isName_of_peek hbuffer hpeek, shallow_atom name hinv⟩
  | case5 unfinished stream name rest' hpeek _ unfinished' hplace ih =>
    have hname : (SExpr.atom name).Readable := isName_of_peek hbuffer hpeek
    exact ih (spelled_drop _)
      (admits_of_place_inr hname (shallow_atom name hinv) hinv hplace) h
  | case6 => cases h
  | case7 unfinished stream rest' hpeek _ hlimit ih =>
    have hopened : Admits limit ([] :: unfinished) :=
      ⟨by simp, shallow_of_not_atLimit hlimit, hinv⟩
    exact ih (spelled_drop _) hopened h
  | case8 => cases h
  | case9 stream rest' hpeek elements outer _ e' hplace =>
    cases h
    obtain ⟨rfl, rfl⟩ := eq_of_place_inl hplace
    exact readable_close hinv
  | case10 stream rest' hpeek elements outer _ unfinished' hplace ih =>
    obtain ⟨hread, hdepth⟩ := readable_close hinv
    exact ih (spelled_drop _) (admits_of_place_inr hread hdepth hinv.2.2 hplace) h

end TokenStream

lemma readable_of_read {limit : Option Nat} {text : String} {e : SExpr}
    (h : read limit text = .ok e) : e.Readable ∧ Shallow limit e.depth := by
  have hfresh : (TokenStream.ofString text).Spelled := by
    intro name hname
    cases hname
  rw [read] at h
  split at h
  · cases h
  · cases h
  · cases h
  · rename_i e' rest hparse
    split at h
    · cases h
    · cases h
    · cases h
      exact TokenStream.readable_of_parseWithin limit [] _ e rest hfresh trivial hparse

/-- The text that is printed for the tree of a text. -/
def canonicalText (limits : Limits) (text : String) : Except Fault String :=
  (read limits.nesting text).bind fun e => (Value.ofSExpr e).print limits

/-- Printing and reading are inverse to each other between the readable trees and the texts that
are printed for them, and reading gives no other trees. -/
theorem read_print_bijection (limits : Limits) :
    (∀ e : SExpr, e.Readable → Shallow limits.nesting e.depth →
      ∃ text, (Value.ofSExpr e).print limits = .ok text ∧ read limits.nesting text = .ok e) ∧
    (∀ text e, read limits.nesting text = .ok e →
      e.Readable ∧ Shallow limits.nesting e.depth ∧
        ∃ canonical, canonicalText limits text = .ok canonical ∧
          read limits.nesting canonical = .ok e ∧
          canonicalText limits canonical = .ok canonical) := by
  refine ⟨?_, ?_⟩
  · intro e hread hdepth
    exact ⟨_, print_eq_text limits e hdepth, read_text limits.nesting e hread hdepth⟩
  · intro text e h
    obtain ⟨hread, hdepth⟩ := readable_of_read h
    have hprint := print_eq_text limits e hdepth
    have hback := read_text limits.nesting e hread hdepth
    refine ⟨hread, hdepth, (Value.ofSExpr e).text, ?_, hback, ?_⟩
    · rw [canonicalText, h]
      exact hprint
    · rw [canonicalText, hback]
      exact hprint

/-- The empty list is written in two ways, of which `nil` is the canonical one. -/
theorem read_print_of_empty_lists :
    let e := SExpr.pair (.atom "a") (.pair .nil (.pair (.pair .nil .nil) .nil))
    (e.Readable ∧ Shallow (some 2) e.depth ∧
      ∃ text, (Value.ofSExpr e).print ⟨none, some 2⟩ = .ok text ∧ read (some 2) text = .ok e) ∧
    read (some 2) "( a ( ) (nil) )" = .ok e ∧
      ∃ canonical, canonicalText ⟨none, some 2⟩ "( a ( ) (nil) )" = .ok canonical ∧
        canonicalText ⟨none, some 2⟩ canonical = .ok canonical := by
  intro e
  have hread : e.Readable := by decide
  have hdepth : Shallow (some 2) e.depth := by decide
  have htext : read (some 2) "( a ( ) (nil) )" = .ok e := by decide +kernel
  obtain ⟨hprint, htexts⟩ := read_print_bijection ⟨none, some 2⟩
  obtain ⟨-, -, canonical, hcanonical, -, hagain⟩ := htexts _ _ htext
  exact ⟨⟨hread, hdepth, hprint e hread hdepth⟩, htext, canonical, hcanonical, hagain⟩

end Evlis
