import DeskCalc.Proofs.Token.Literal

/-!
# Printed tokens

A printed text is made of tokens and spaces. It can be read again where no two pieces run together:
a number or a word is followed by something else than a number or a word, and a times sign by
something else than a times sign, for two of these are the sign of a power.

* `Piece`, `Spaced`: what is printed, and that its pieces do not run together.
* `Token.Printable`: the numbers and words whose text is read as themselves.
* `tokenize_pieces`: what is printed is read as its tokens.
* `Token.pieces`, `tokenize_listText`: the text of a list of tokens is such a print, and is read as
  the list.
-/

namespace DeskCalc

open Text Binary64

/-! ## Numbers and words that are read as themselves -/

/-- The number is written without a sign: it is finite, not below zero and not the negative zero. -/
structure Binary64.Unsigned (x : Float) : Prop where
  isFinite : x.isFinite = true
  not_neg : ¬ x < 0
  ne_negative_zero : x ≠ ofRank true 0

theorem Binary64.Unsigned.hasSign_eq {x : Float} (h : Unsigned x) : hasSign x = false := by
  cases hsign : hasSign x with
  | false => rfl
  | true =>
      have hzero : rank x = 0 := by
        refine Decidable.byContradiction fun hrank => ?_
        exact h.not_neg ((lt_zero_iff h.isFinite).2 ⟨hsign, hrank⟩)
      refine absurd (ext_rank ?_ ?_) h.ne_negative_zero
      · rw [hsign, hasSign_ofRank (Nat.zero_le _)]
      · rw [hzero, rank_ofRank (Nat.zero_le _)]

/-- A number that has no sign is the double of its rank. -/
theorem Binary64.Unsigned.ofRank_rank {x : Float} (h : Unsigned x) : ofRank false (rank x) = x := by
  have hfinite := (isFinite_iff x).1 h.isFinite
  refine ext_rank ?_ ?_
  · rw [h.hasSign_eq, hasSign_ofRank (Nat.le_of_lt hfinite)]
  · exact rank_ofRank (Nat.le_of_lt hfinite)

theorem Binary64.unsigned_ofRank {r : Nat} (hr : r < infinityRank) : Unsigned (ofRank false r) := by
  have hrank : rank (ofRank false r) = r := rank_ofRank (Nat.le_of_lt hr)
  have hsign : hasSign (ofRank false r) = false := hasSign_ofRank (Nat.le_of_lt hr)
  have hfinite : (ofRank false r).isFinite = true := by
    rw [isFinite_iff, hrank]
    exact hr
  refine ⟨hfinite, ?_, ?_⟩
  · intro hneg
    rw [((lt_zero_iff hfinite).1 hneg).1] at hsign
    cases hsign
  · intro heq
    rw [heq, hasSign_ofRank (Nat.zero_le _)] at hsign
    cases hsign

/-- The text of such a number is the shortest decimal of its magnitude. -/
theorem Binary64.Unsigned.display_eq {x : Float} (h : Unsigned x) :
    Decimal.display x = Decimal.text (Decimal.shortest (rank x)) := by
  rw [Decimal.display_eq h.isFinite, if_neg h.not_neg]

/-- Whether a text is a word: it starts as one, and goes on as one. -/
def Text.isWord : Text → Bool
  | [] => false
  | c :: t => startsWord c && t.all isWordChar

theorem Text.isWord_cons {c : Char} {t : Text} (h : isWord (c :: t) = true) :
    startsWord c = true ∧ ∀ x ∈ t, isWordChar x = true := by
  rw [isWord, Bool.and_eq_true, List.all_eq_true] at h
  exact h

/-- All characters of a word are word characters. -/
theorem Text.isWordChar_of_isWord {w : Text} (h : isWord w = true) :
    ∀ c ∈ w, isWordChar c = true := by
  cases w with
  | nil => exact fun c hc => by cases hc
  | cons c t =>
      obtain ⟨hstart, hrest⟩ := isWord_cons h
      intro x hx
      rcases List.mem_cons.1 hx with rfl | hx
      · exact isWordChar_of_startsWord hstart
      · exact hrest x hx

namespace Token

/-- **A word is read as its name**, where nothing goes on with it. -/
theorem tokenize_word_append {w t : Text} (hw : isWord w = true)
    (ht : t.head?.any isWordChar = false) :
    tokenize (w ++ t) = (tokenize t).map (.name (String.ofList w) :: ·) := by
  cases w with
  | nil => cases hw
  | cons c u =>
      obtain ⟨hstart, hrest⟩ := isWord_cons hw
      have hchar := isWordChar_of_startsWord hstart
      rw [List.cons_append, tokenize_cons,
        scan_word (isBlank_of_isWordChar hchar) (ofSymbol?_of_isWordChar hchar) hstart,
        takeWhile_run hrest ht, dropWhile_run hrest ht]
      cases tokenize t <;> rfl

theorem tokenize_blank {c : Char} (h : isBlank c = true) (t : Text) :
    tokenize (c :: t) = tokenize t := by
  rw [tokenize_cons, scan, if_pos h]
  cases tokenize t <;> rfl

/-- Whether the token is a number or a word, which have texts of several characters. -/
def isAtom : Token → Bool
  | .number _ => true
  | .name _ => true
  | _ => false

/-- The text of the token is read as the token. -/
def Printable : Token → Prop
  | .number x => Unsigned x
  | .name w => isWord w.toList = true
  | _ => True

/-- A token that is no number and no word is a symbol. -/
theorem exists_symbol {t : Token} (h : t.isAtom = false) :
    ∃ c, t.text = [c] ∧ ofSymbol? c = some t ∧ isBlank c = false ∧ goesOn c = false := by
  cases t with
  | number x => cases h
  | name w => cases h
  | operator op => exact ⟨op.symbol, rfl, by cases op <;> decide⟩
  | openParen => exact ⟨'(', rfl, by decide⟩
  | closeParen => exact ⟨')', rfl, by decide⟩
  | comma => exact ⟨',', rfl, by decide⟩

end Token

open Token

/-! ## Pieces -/

/-- What is printed: a token, or a space. -/
inductive Piece where
  | token (t : Token)
  | space

namespace Piece

/-- The text of a piece. -/
def text : Piece → Text
  | .token t => t.text
  | .space => [' ']

/-- The token of a piece, none for a space. -/
def token? : Piece → Option Token
  | .token t => some t
  | .space => none

/-- Whether two pieces run together when one follows the other. -/
def clashes : Piece → Piece → Bool
  | .token s, .token t =>
    s.isAtom && t.isAtom || s == .operator .mul && t == .operator .mul
  | _, _ => false

end Piece

/-- No two neighbours run together. -/
def Spaced : List Piece → Prop
  | [] => True
  | p :: ps => ps.head?.any p.clashes = false ∧ Spaced ps

/-- The text of pieces. -/
def Piece.listText (ps : List Piece) : Text :=
  ps.flatMap Piece.text

/-- A space, and a symbol that is no times sign, runs together with nothing. -/
def Piece.isNeutral : Piece → Bool
  | .token t => !t.isAtom && t != .operator .mul
  | .space => true

theorem Piece.clashes_of_isNeutral {p : Piece} (h : p.isNeutral = true) (q : Piece) :
    p.clashes q = false ∧ q.clashes p = false := by
  cases p with
  | space => cases q <;> exact ⟨rfl, rfl⟩
  | token s =>
      cases q with
      | space => exact ⟨rfl, rfl⟩
      | token t =>
          rw [isNeutral, Bool.and_eq_true, Bool.not_eq_true', bne_iff_ne] at h
          simp [clashes, h.1, h.2]

theorem Spaced.cons {p : Piece} {ps : List Piece} (hp : p.isNeutral = true) (h : Spaced ps) :
    Spaced (p :: ps) := by
  refine ⟨?_, h⟩
  cases ps with
  | nil => rfl
  | cons q ps => exact (Piece.clashes_of_isNeutral hp q).1

/-- Pieces may be put one after the other where the second part starts with a piece that runs
together with nothing. -/
theorem Spaced.append {ps qs : List Piece} {q : Piece} (hps : Spaced ps) (hqs : Spaced (q :: qs))
    (hq : q.isNeutral = true) : Spaced (ps ++ q :: qs) := by
  induction ps with
  | nil => exact hqs
  | cons p ps ih =>
      refine ⟨?_, ih hps.2⟩
      cases ps with
      | nil => exact (Piece.clashes_of_isNeutral hq p).2
      | cons p' ps => exact hps.1

theorem Spaced.concat {ps : List Piece} {q : Piece} (hps : Spaced ps) (hq : q.isNeutral = true) :
    Spaced (ps ++ [q]) :=
  hps.append ⟨rfl, trivial⟩ hq

/-- What follows a number or a word in print does not go on with it. -/
theorem Spaced.head?_listText {t : Token} {ps : List Piece} (h : Spaced (.token t :: ps))
    (ht : t.isAtom = true) : (Piece.listText ps).head?.any goesOn = false := by
  cases ps with
  | nil => rfl
  | cons p ps =>
      cases p with
      | space => rfl
      | token u =>
          have hclash : (t.isAtom && u.isAtom || t == .operator .mul && u == .operator .mul) =
            false :=
            h.1
          rw [ht, Bool.true_and, Bool.or_eq_false_iff] at hclash
          obtain ⟨c, htext, -, -, hc⟩ := exists_symbol hclash.1
          show (u.text ++ Piece.listText ps).head?.any goesOn = false
          rw [htext]
          exact hc

/-- **What is printed is read as its tokens.** -/
theorem tokenize_pieces {ps : List Piece} (hprintable : ∀ t, .token t ∈ ps → t.Printable)
    (h : Spaced ps) : tokenize (Piece.listText ps) = .ok (ps.filterMap Piece.token?) := by
  induction ps with
  | nil => simp [Piece.listText, tokenize]
  | cons p ps ih =>
      have hrest := ih (fun t ht => hprintable t (List.mem_cons_of_mem p ht)) h.2
      show tokenize (p.text ++ Piece.listText ps) = _
      cases p with
      | space =>
          show tokenize (' ' :: Piece.listText ps) = _
          rw [tokenize_blank rfl, hrest]
          rfl
      | token t =>
          have ht := hprintable t List.mem_cons_self
          show tokenize (t.text ++ Piece.listText ps) = .ok (t :: ps.filterMap Piece.token?)
          cases hatom : t.isAtom with
          | false =>
              obtain ⟨c, htext, hsymbol, hblank, -⟩ := exists_symbol hatom
              rw [htext, List.singleton_append, tokenize_symbol hblank hsymbol, hrest]
              rfl
          | true =>
              have hstop := h.head?_listText hatom
              cases t with
              | number x =>
                  replace ht : Unsigned x := ht
                  have hfinite := (isFinite_iff x).1 ht.isFinite
                  show tokenize (Decimal.display x ++ Piece.listText ps) = _
                  rw [ht.display_eq, tokenize_text_append _ hstop, Decimal.nearest_shortest hfinite,
                    ht.ofRank_rank, hrest]
                  rfl
              | name w =>
                  have hword : (Piece.listText ps).head?.any isWordChar = false := by
                    cases hhead : (Piece.listText ps).head? with
                    | none => rfl
                    | some c =>
                        rw [hhead] at hstop
                        exact (Bool.or_eq_false_iff.1 hstop).1
                  show tokenize (w.toList ++ Piece.listText ps) = _
                  rw [tokenize_word_append ht hword, String.ofList_toList, hrest]
                  rfl
              | _ => cases hatom

/-! ## Lists of tokens -/

namespace Token

/-- The tokens one space apart. -/
def pieces (ts : List Token) : List Piece :=
  (ts.map Piece.token).intersperse .space

theorem pieces_cons_cons (t u : Token) (ts : List Token) :
    pieces (t :: u :: ts) = .token t :: .space :: pieces (u :: ts) :=
  List.intersperse_cons_cons

theorem listText_eq_pieces (ts : List Token) : Token.listText ts = Piece.listText (pieces ts) := by
  induction ts with
  | nil => rfl
  | cons t ts ih =>
      cases ts with
      | nil => rfl
      | cons u ts =>
          rw [pieces_cons_cons]
          show [' '].intercalate (t.text :: u.text :: ts.map Token.text) =
            t.text ++ ([' '] ++ Piece.listText (pieces (u :: ts)))
          rw [← ih]
          simp [Token.listText, Text.spaced, List.intercalate]

theorem filterMap_pieces (ts : List Token) : (pieces ts).filterMap Piece.token? = ts := by
  induction ts with
  | nil => rfl
  | cons t ts ih =>
      cases ts with
      | nil => rfl
      | cons u ts =>
          rw [pieces_cons_cons]
          exact congrArg (t :: ·) ih

theorem spaced_pieces (ts : List Token) : Spaced (pieces ts) := by
  induction ts with
  | nil => trivial
  | cons t ts ih =>
      cases ts with
      | nil => exact ⟨rfl, trivial⟩
      | cons u ts =>
          rw [pieces_cons_cons]
          exact ⟨rfl, ih.cons rfl⟩

/-- **The text of a list of tokens is read as the list.** -/
theorem tokenize_listText {ts : List Token} (h : ∀ t ∈ ts, t.Printable) :
    tokenize (Token.listText ts) = .ok ts := by
  have hprintable : ∀ t, Piece.token t ∈ pieces ts → t.Printable := by
    intro t ht
    refine h t ?_
    rw [← filterMap_pieces ts]
    exact List.mem_filterMap.2 ⟨_, ht, rfl⟩
  rw [listText_eq_pieces, tokenize_pieces hprintable (spaced_pieces ts), filterMap_pieces]

end Token

end DeskCalc
