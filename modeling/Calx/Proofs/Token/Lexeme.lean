import Calx.Proofs.Number.Spelled
import Calx.Proofs.Token.Literal
import Calx.Proofs.Token.Slice

/-!
# Lexemes

`Lexeme word t` is the lexical grammar: the characters `word` are the token `t`. What is cut from a
text is its longest beginning that is a lexeme (`cut_isLongest`), since a lexeme is cut whole
(`Lexeme.cut_eq`) and a cut does not look behind the characters it takes (`Token.cut_take`). Where no
beginning is a lexeme, `Fault` says what is wrong.
-/

namespace Calx

open Number

namespace Token

/-- The marks, by their characters. -/
def marks : List (Char × Token) :=
  [(';', semicolon), ('=', equals), ('+', plus), ('-', minus), ('*', asterisk), ('/', slash),
    ('(', openParen), (')', closeParen), (',', comma)]

theorem ofPunctuation?_eq_some_iff {c : Char} {t : Token} :
    ofPunctuation? c = some t ↔ (c, t) ∈ marks := by
  simp only [marks, List.mem_cons, Prod.mk.injEq, List.mem_nil_iff, or_false]
  constructor
  · intro h
    unfold ofPunctuation? at h
    split at h <;> cases h <;> simp
  · rintro (⟨rfl, rfl⟩ | ⟨rfl, rfl⟩ | ⟨rfl, rfl⟩ | ⟨rfl, rfl⟩ | ⟨rfl, rfl⟩ | ⟨rfl, rfl⟩ | ⟨rfl, rfl⟩ |
      ⟨rfl, rfl⟩ | ⟨rfl, rfl⟩) <;> rfl

end Token

/-- The characters of a word that is a token: a letter or an underscore, and then letters, digits and
underscores. -/
inductive IsWord : List Char → Prop
  | chars {c : Char} {cs : List Char} : c.isAlpha = true ∨ c = '_' →
      (∀ d ∈ cs, d.isAlphanum = true ∨ d = '_') → IsWord (c :: cs)

/-- The lexical grammar: the characters of a token, and what the token is. -/
inductive Lexeme : List Char → Token → Prop
  | mark {c : Char} {t : Token} : (c, t) ∈ Token.marks → Lexeme [c] t
  | keyword {word : String} {t : Token} : (word, t) ∈ Token.keywords → Lexeme word.toList t
  | identifier {name : String} : IsWord name.toList → (∀ t, (name, t) ∉ Token.keywords) →
      Lexeme name.toList (.identifier name)
  | number {n : Numeral} {cs : List Char} {x : Float} :
      n.Spelled cs → IsNearest n.value x → Lexeme cs (.number x)
  | string {body ds : List Char} : Quoted.Spells body ds →
      Lexeme ('"' :: (body ++ ['"'])) (.string (String.ofList ds))

/-! ## A lexeme is cut -/

theorem isWord_iff {word : List Char} : IsWord word ↔ ∃ c cs, word = c :: cs ∧
    Token.isWordStart c = true ∧ ∀ d ∈ cs, Token.isWordChar d = true := by
  simp only [Token.isWordStart, Token.isWordChar, Bool.or_eq_true, beq_iff_eq]
  constructor
  · rintro ⟨hc, hcs⟩
    exact ⟨_, _, rfl, hc, hcs⟩
  · rintro ⟨c, cs, rfl, hc, hcs⟩
    exact .chars hc hcs

theorem isWord_of_mem_keywords {word : String} {t : Token} (h : (word, t) ∈ Token.keywords) :
    IsWord word.toList := by
  simp only [Token.keywords, List.mem_cons, Prod.mk.injEq, List.mem_nil_iff, or_false] at h
  rcases h with ⟨rfl, -⟩ | ⟨rfl, -⟩ | ⟨rfl, -⟩ <;>
    exact isWord_iff.2 ⟨_, _, rfl, rfl, List.all_eq_true.1 rfl⟩

theorem ofWord_of_mem_keywords {word : String} {t : Token} (h : (word, t) ∈ Token.keywords) :
    Token.ofWord word = t := by
  simp only [Token.keywords, List.mem_cons, Prod.mk.injEq, List.mem_nil_iff, or_false] at h
  rcases h with ⟨rfl, rfl⟩ | ⟨rfl, rfl⟩ | ⟨rfl, rfl⟩ <;> decide

theorem ofWord_of_not_mem_keywords {word : String} (h : ∀ t, (word, t) ∉ Token.keywords) :
    Token.ofWord word = .identifier word := by
  have hlookup : Token.keywords.lookup word = none :=
    List.lookup_eq_none_iff.2 fun p hp => by
      rw [bne_iff_ne]
      rintro rfl
      exact h p.2 hp
  rw [Token.ofWord, hlookup]
  rfl

/-- A word is cut to its end. -/
theorem IsWord.cutWord_eq {word : List Char} (h : IsWord word) :
    Token.cutWord word = ⟨Token.ofWord (String.ofList word), word.length⟩ := by
  obtain ⟨c, cs, rfl, hc, hcs⟩ := isWord_iff.1 h
  have hrun : (c :: cs).takeWhile Token.isWordChar = c :: cs :=
    List.takeWhile_eq_self_iff.2
      (List.forall_mem_cons.2 ⟨Token.isWordChar_of_isWordStart hc, hcs⟩)
  rw [Token.cutWord, hrun]

theorem IsWord.isAt {word : List Char} (h : IsWord word) (rest : List Char) :
    Cut.IsAt (word ++ rest) (Token.cutWord (word ++ rest)) := by
  obtain ⟨c, cs, rfl, hc, -⟩ := isWord_iff.1 h
  exact .word hc

namespace Lexeme

variable {word : List Char} {t : Token}

/-- **A lexeme is cut to its end.** -/
theorem cut_eq (h : Lexeme word t) : Token.cut word = .ok (some ⟨t, word.length⟩) := by
  have hword {name : String} (h : IsWord name.toList) :
      Token.cut name.toList = .ok (some ⟨Token.ofWord name, name.toList.length⟩) := by
    have hat := h.isAt []
    rw [List.append_nil, h.cutWord_eq, String.ofList_toList] at hat
    exact Token.cut_of_isAt hat
  cases h with
  | mark hc => exact Token.cut_of_isAt (.mark (Token.ofPunctuation?_eq_some_iff.2 hc))
  | keyword hk => rw [hword (isWord_of_mem_keywords hk), ofWord_of_mem_keywords hk]
  | identifier hname hk => rw [hword hname, ofWord_of_not_mem_keywords hk]
  | @number n _ x hspelled hx =>
    rw [hx.unique n.isNearest_toFloat]
    exact Token.cut_of_isAt (.number hspelled.scan?_eq)
  | @string body ds hbody =>
    have hat := Cut.IsAt.string (Quoted.decode_of_spells hbody [])
    rw [Token.cut_of_isAt hat, List.length_cons, List.length_append]
    rfl

/-- Where a lexeme stands, something is cut, whatever follows. -/
theorem exists_cut_append (h : Lexeme word t) (rest : List Char) :
    ∃ c, Token.cut (word ++ rest) = .ok (some c) := by
  cases h with
  | mark hc => exact ⟨_, Token.cut_of_isAt (.mark (Token.ofPunctuation?_eq_some_iff.2 hc))⟩
  | keyword hk => exact ⟨_, Token.cut_of_isAt ((isWord_of_mem_keywords hk).isAt rest)⟩
  | identifier hname => exact ⟨_, Token.cut_of_isAt (hname.isAt rest)⟩
  | number hspelled =>
    have hscan := hspelled.scan?_eq
    cases word with
    | nil => cases hscan
    | cons c cs =>
      obtain ⟨r, hr⟩ := Numeral.exists_scan?_of_isDigit (Numeral.isDigit_of_scan? hscan) (cs ++ rest)
      exact ⟨_, Token.cut_of_isAt (.number hr)⟩
  | string hbody =>
    rw [List.cons_append, List.append_assoc]
    exact ⟨_, Token.cut_of_isAt (.string (Quoted.decode_of_spells hbody rest))⟩

theorem of_isWord (h : IsWord word) : Lexeme word (Token.ofWord (String.ofList word)) := by
  obtain ⟨name, rfl⟩ : ∃ name : String, name.toList = word :=
    ⟨String.ofList word, String.toList_ofList⟩
  rw [String.ofList_toList]
  by_cases hk : ∃ t, (name, t) ∈ Token.keywords
  · obtain ⟨t, ht⟩ := hk
    rw [ofWord_of_mem_keywords ht]
    exact .keyword ht
  · rw [ofWord_of_not_mem_keywords fun t ht => hk ⟨t, ht⟩]
    exact .identifier h fun t ht => hk ⟨t, ht⟩

/-- **What is cut is a lexeme.** -/
theorem of_cut {cs : List Char} {c : Cut} (h : Token.cut cs = .ok (some c)) :
    Lexeme (cs.take c.width) c.token := by
  cases Token.cut_eq_some_iff.1 h with
  | mark hc => exact .mark (Token.ofPunctuation?_eq_some_iff.1 hc)
  | @word c cs hc =>
    have hrun : (c :: cs).takeWhile Token.isWordChar = c :: cs.takeWhile Token.isWordChar :=
      List.takeWhile_cons_of_pos (Token.isWordChar_of_isWordStart hc)
    have hword : IsWord ((c :: cs).takeWhile Token.isWordChar) := by
      rw [hrun]
      exact isWord_iff.2 ⟨_, _, rfl, hc, fun d => List.mem_takeWhile_imp⟩
    have htake := List.prefix_iff_eq_take.1 (List.takeWhile_prefix (l := c :: cs) Token.isWordChar)
    rw [Token.cutWord, ← htake]
    exact of_isWord hword
  | number hscan => exact .number (Numeral.spelled_of_scan? hscan) (Numeral.isNearest_toFloat _)
  | string hdecode =>
    obtain ⟨body, rest, rfl, hbody, rfl⟩ := Quoted.spells_of_decode hdecode
    rw [List.take_succ_cons, List.take_length_add_append, List.take_succ_cons, List.take_zero]
    exact .string hbody

end Lexeme

/-! ## The longest lexeme -/

/-- Some beginning of a text is a lexeme. -/
def StartsLexeme (cs : List Char) : Prop :=
  ∃ word t, word <+: cs ∧ Lexeme word t

/-- The token and the width of a cut are those of the longest beginning of a text that is a lexeme. -/
structure Cut.IsLongest (c : Cut) (cs : List Char) : Prop where
  /-- Some beginning of that width is that token. -/
  lexeme : ∃ word, word <+: cs ∧ word.length = c.width ∧ Lexeme word c.token
  /-- No longer beginning is a lexeme. -/
  longest : ∀ word t, word <+: cs → Lexeme word t → word.length ≤ c.width

/-- What is wrong with a text that starts with no lexeme. -/
inductive Fault : List Char → LexError → Prop
  | character {c : Char} {cs : List Char} : c ≠ '"' → Fault (c :: cs) (.unexpectedCharacter c)
  | escape {e : Char} {cs : List Char} : Quoted.Breaks cs e → Fault ('"' :: cs) (.undefinedEscape e)
  | unclosed {cs : List Char} : (∀ e, ¬Quoted.Breaks cs e) → Fault ('"' :: cs) .unexpectedEnd

/-- **What is cut is the longest lexeme.** -/
theorem isLongest_of_cut {cs : List Char} {c : Cut} (h : Token.cut cs = .ok (some c)) :
    c.IsLongest cs := by
  refine ⟨⟨cs.take c.width, List.take_prefix _ _, ?_, .of_cut h⟩, fun word t hprefix hword => ?_⟩
  · exact List.length_take_of_le (Token.width_le_of_cut h)
  · by_contra hlt
    -- A longer lexeme would be cut as a whole, but a cut takes the same from it.
    have hcut := Token.cut_take h (Nat.le_of_not_le hlt)
    rw [← List.prefix_iff_eq_take.1 hprefix, hword.cut_eq] at hcut
    cases hcut
    exact hlt (Nat.le_refl _)

theorem isLongest_unique {cs : List Char} {c d : Cut} (hc : c.IsLongest cs) (hd : d.IsLongest cs) :
    c = d := by
  obtain ⟨⟨word, hprefix, hwidth, hword⟩, hlongest⟩ := hc
  obtain ⟨⟨word', hprefix', hwidth', hword'⟩, hlongest'⟩ := hd
  have hlength : word.length = word'.length := by
    have hle := hlongest word' _ hprefix' hword'
    have hge := hlongest' word _ hprefix hword
    omega
  have hsame : word = word' :=
    (List.prefix_of_prefix_length_le hprefix hprefix' (Nat.le_of_eq hlength)).eq_of_length hlength
  subst hsame
  have hcut := hword.cut_eq.symm.trans hword'.cut_eq
  obtain ⟨ctoken, cwidth⟩ := c
  obtain ⟨dtoken, dwidth⟩ := d
  cases hcut
  subst hwidth hwidth'
  rfl

theorem fault_of_cut {cs : List Char} {e : LexError} (h : Token.cut cs = .error e) : Fault cs e := by
  cases cs with
  | nil => cases h
  | cons c cs =>
    rcases Token.cut_cons c cs with ⟨t, -, hcut⟩ | ⟨rfl, e, hdecode, hcut⟩ | ⟨hc, hcut⟩ <;>
      cases hcut.symm.trans h
    · have hdecoded := Quoted.decoded cs
      rw [hdecode] at hdecoded
      cases hdecoded with
      | broken hbreaks => exact .escape hbreaks
      | unclosed =>
        refine .unclosed fun e hbreaks => ?_
        cases hdecode.symm.trans (Quoted.decode_of_breaks hbreaks)
    · exact .character hc

theorem Fault.unique {cs : List Char} {e e' : LexError} (h : Fault cs e) (h' : Fault cs e') :
    e = e' := by
  cases h with
  | character hc =>
    cases h' with
    | character => rfl
    | escape | unclosed => exact absurd rfl hc
  | escape hbreaks =>
    cases h' with
    | character hc => exact absurd rfl hc
    | escape hbreaks' =>
      cases (Quoted.decode_of_breaks hbreaks).symm.trans (Quoted.decode_of_breaks hbreaks')
      rfl
    | unclosed hnone => exact absurd hbreaks (hnone _)
  | unclosed hnone =>
    cases h' with
    | character hc => exact absurd rfl hc
    | escape hbreaks => exact absurd hbreaks (hnone _)
    | unclosed => rfl

theorem exists_cut_iff {cs : List Char} :
    (∃ c, Token.cut cs = .ok (some c)) ↔ StartsLexeme cs := by
  constructor
  · rintro ⟨c, hcut⟩
    exact ⟨_, _, List.take_prefix _ _, .of_cut hcut⟩
  · rintro ⟨word, t, ⟨rest, rfl⟩, hword⟩
    exact hword.exists_cut_append rest

/-- **Cutting is maximal munch.** At every place of a text, what is cut is the longest beginning of
what is left that is a lexeme, with the token that this beginning is; something is cut if any
beginning is a lexeme. Otherwise, and only then, there is an error, the one that `Fault` tells. -/
theorem cut_longest_lexeme (text : String) {place : Nat} (hplace : place < text.length) :
    (∀ c, Token.cut (text.toList.drop place) = .ok (some c) ↔
      c.IsLongest (text.toList.drop place)) ∧
    ((∃ c, Token.cut (text.toList.drop place) = .ok (some c)) ↔
      StartsLexeme (text.toList.drop place)) ∧
    (∀ e, Token.cut (text.toList.drop place) = .error e ↔
      ¬StartsLexeme (text.toList.drop place) ∧ Fault (text.toList.drop place) e) ∧
    ((∃ e, Token.cut (text.toList.drop place) = .error e) ↔
      ¬StartsLexeme (text.toList.drop place)) := by
  have hne : text.toList.drop place ≠ [] := by
    rw [Ne, List.drop_eq_nil_iff, String.length_toList]
    exact Nat.not_le.2 hplace
  generalize text.toList.drop place = rest at hne
  have herror : (∃ e, Token.cut rest = .error e) ↔ ¬StartsLexeme rest := by
    rw [← exists_cut_iff]
    cases hcut : Token.cut rest with
    | error e => simp
    | ok found =>
      cases found with
      | none => exact absurd (Token.eq_nil_of_cut hcut) hne
      | some c => simp
  refine ⟨fun c => ⟨isLongest_of_cut, fun hc => ?_⟩, exists_cut_iff, fun e => ⟨fun h => ?_, ?_⟩,
    herror⟩
  · obtain ⟨word, hprefix, -, hword⟩ := hc.lexeme
    obtain ⟨d, hd⟩ := exists_cut_iff.2 ⟨word, _, hprefix, hword⟩
    rw [hd, isLongest_unique (isLongest_of_cut hd) hc]
  · exact ⟨herror.1 ⟨e, h⟩, fault_of_cut h⟩
  · rintro ⟨hnone, hfault⟩
    obtain ⟨e', he'⟩ := herror.2 hnone
    rw [he', hfault.unique (fault_of_cut he')]

/-- An exponent without digits is left where it stands, and a literal with an undefined escape is no
lexeme, though a quotation mark closes it. -/
theorem cut_unfinished_exponent_and_undefined_escape :
    4 < "x = 1.5e+y".length ∧
    Cut.IsLongest ⟨.number (Numeral.toFloat ⟨['1'], ['5'], none⟩), 3⟩
      ("x = 1.5e+y".toList.drop 4) ∧
    1 < "(\"\\t\\x\"".length ∧ ¬StartsLexeme ("(\"\\t\\x\"".toList.drop 1) ∧
    Fault ("(\"\\t\\x\"".toList.drop 1) (.undefinedEscape 'x') := by
  have hnumber : 4 < "x = 1.5e+y".length := by decide
  have hstring : 1 < "(\"\\t\\x\"".length := by decide
  refine ⟨hnumber, ((cut_longest_lexeme _ hnumber).1 _).1 rfl, hstring, ?_⟩
  exact ((cut_longest_lexeme _ hstring).2.2.1 _).1 rfl

end Calx
