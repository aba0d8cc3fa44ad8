import Mathlib.Data.List.Induction
import GrammarTables.Proofs.Regex.Reading
/-
# Quoting a text

A text is quoted by a backslash before each ASCII punctuation character.  Read as a regular
expression, a quoted text is the text itself: each of its characters, be it a letter, a line feed or
an escaped brace, is cut into one token for that character (`lexFrom_quote`), so no group, bracket,
name, count or quantifier can come about, and the tree is the one of the literal text, but for the
bytes that its parts came from (`parse_quote`).
-/

namespace GrammarTables.Regex

/-! ## 1. The tree of a text -/

namespace Tree

mutual

/-- The constant text of a tree does not depend on places. -/
theorem constant?_bare : ∀ t : Tree, t.bare.constant? = t.constant?
  | .group _ none inner => by rw [bare, constant?, constant?, constant?_bare inner]
  | .seq _ items => by rw [bare, constant?, constant?, constantAll?_bareAll items]
  | .empty _ | .char _ _ | .set _ _ | .any _ | .eoi _ | .expand _ _ | .alt _ _
  | .group _ (some _) _ | .notFollowedBy _ _ | .repeated _ _ _ _ | .algebra _ _ _ _
  | .placeholder _ => by simp only [bare, constant?]

theorem constantAll?_bareAll : ∀ ts : List Tree, constantAll? (bareAll ts) = constantAll? ts
  | [] => rfl
  | t :: ts => by
    rw [bareAll, constantAll?, constantAll?, constant?_bare t, constantAll?_bareAll ts]

end

/-- The tree of a text that stands for itself, without places. -/
def ofText : List Char → Tree
  | [] => .empty (.point 0)
  | [c] => .char (.point 0) c.toNat
  | cs => .seq (.point 0) (cs.map fun c => .char (.point 0) c.toNat)

theorem isScalar_toNat (c : Char) : isScalar c.toNat = true := by
  have h : c.toNat < 0xD800 ∨ (0xDFFF < c.toNat ∧ c.toNat < 0x110000) := c.valid
  have hmax : maxCodePoint = 0x10FFFF := rfl
  simp only [isScalar, Bool.or_eq_true, Bool.and_eq_true, decide_eq_true_eq]
  omega

theorem constant?_char (r : TextRange) (c : Char) : (char r c.toNat).constant? = some [c] := by
  rw [constant?, if_pos (isScalar_toNat c), Char.ofNat_toNat]

theorem constant?_ofText (cs : List Char) : (ofText cs).constant? = some cs := by
  have hall : ∀ cs : List Char,
      constantAll? (cs.map fun c => .char (.point 0) c.toNat) = some cs := by
    intro cs
    induction cs with
    | nil => rfl
    | cons c cs ih =>
      rw [List.map_cons, constantAll?, constant?_char, ih]
      rfl
  match cs with
  | [] => rfl
  | [c] => exact constant?_char _ c
  | c :: d :: rest => exact hall (c :: d :: rest)

/-- Characters one after the other are the tree of their text. -/
theorem bare_sequence {ts : List Tree} {cs : List Char} (stop : Nat)
    (h : ts.map bare = cs.map fun c => .char (.point 0) c.toNat) :
    (Level.sequence ts stop).bare = ofText cs := by
  match cs with
  | [] =>
    rw [List.map_eq_nil_iff.mp h]
    rfl
  | [c] =>
    obtain ⟨t, rfl, ht⟩ := List.map_eq_singleton_iff.mp h
    exact ht
  | c :: d :: rest =>
    match ts with
    | [] | [_] => simp at h
    | t :: u :: ts =>
      change Tree.seq (.point 0) (bareAll (t :: u :: ts)) = _
      rw [bareAll_eq_map, h]
      rfl

theorem map_bare_charTrees : ∀ (cs : List Char) (offset : Nat),
    (charTrees offset cs).map bare = cs.map fun c => .char (.point 0) c.toNat
  | [], _ => rfl
  | c :: cs, offset => by
    rw [charTrees, List.map_cons, map_bare_charTrees cs, List.map_cons, bare]

/-- The tree of a literal text. -/
theorem bare_literal (text : String) : (literal text).root.bare = ofText text.toList := by
  have htrees := map_bare_charTrees text.toList 0
  unfold literal
  simp only
  split
  · rename_i heq
    rw [heq] at htrees
    rw [List.map_eq_nil_iff.mp htrees.symm]
    rfl
  · rename_i t heq
    rw [heq] at htrees
    exact bare_sequence 0 htrees
  · rename_i ts hnil hone
    rw [← bare_sequence 0 htrees]
    match hts : charTrees 0 text.toList with
    | [] => exact absurd hts hnil
    | [t] => exact absurd hts (hone t)
    | t :: u :: rest => rfl

end Tree

/-! ## 2. Tokens of a quoted text -/

/-- The ASCII characters that can be seen and are neither letters nor digits. -/
def isPunctuation (c : Char) : Bool := 0x21 ≤ c.toNat && c.toNat ≤ 0x7E && !c.isAlphanum

/-- The text with a backslash before each punctuation character. -/
def quote : List Char → List Char
  | [] => []
  | c :: cs => if isPunctuation c then '\\' :: c :: quote cs else c :: quote cs

/-- A backslash and a punctuation character are one token for that character. -/
theorem escape_punctuation {d : Dialect} {c : Char} (h : isPunctuation c = true)
    (cs : List Char) : escape d ('\\' :: c :: cs) = (.char c.toNat, 2) := by
  simp only [isPunctuation, Bool.and_eq_true, decide_eq_true_eq, Bool.not_eq_true'] at h
  obtain ⟨⟨hlo, -⟩, halpha⟩ := h
  have hblank : ∀ b : Char, b.toNat < 0x21 → (c == b) = false := by
    intro b hb
    refine beq_eq_false_iff_ne.mpr ?_
    rintro rfl
    omega
  have hcr := hblank '\r' (by decide)
  have hlf := hblank '\n' (by decide)
  have htab := hblank '\t' (by decide)
  simp [escape, halpha, hcr, hlf, htab]

/-- Any other character is a token by itself. -/
theorem bodyCut_plain {d : Dialect} {c : Char} (h : isPunctuation c = false) (cs : List Char) :
    bodyCut d c cs = (.char c.toNat, 1) := by
  unfold bodyCut
  split
  all_goals first
    | rfl
    | exact absurd h (by decide)

/-- **A quoted text is cut into one token for each character of the text.** -/
theorem lexFrom_quote (d : Dialect) : ∀ (cs : List Char) (st : LexState) (offset : Nat),
    st.inClass = false →
    (lexFrom d st offset (quote cs)).map (·.token) = cs.map fun c => .char c.toNat
  | [], st, offset, _ => by rw [quote, lexFrom]; rfl
  | c :: cs, st, offset, hst => by
    have hrest := fun n stop => lexFrom_quote d cs (st.after (.char n)) stop hst
    cases hc : isPunctuation c with
    | true =>
      have hcut : st.cut d '\\' (c :: quote cs) = (.char c.toNat, 2) := by
        simp [LexState.cut, hst, bodyCut, escape_punctuation hc, Token.asOperand]
      rw [quote, if_pos hc, lexFrom, hcut, List.map_cons, List.map_cons, ← hrest c.toNat]
      rfl
    | false =>
      have hcut : st.cut d c (quote cs) = (.char c.toNat, 1) := by
        simp [LexState.cut, hst, bodyCut_plain hc, Token.asOperand]
      rw [quote, if_neg (by simp [hc]), lexFrom, hcut, List.map_cons, List.map_cons,
        ← hrest c.toNat]
      rfl

/-! ## 3. The tree of a quoted text -/

/-- Tokens for characters are a sequence of these characters. -/
theorem derives_of_chars (cs : List Char) : ∀ {xs : List Lexeme},
    xs.map (·.token) = cs.map (fun c => .char c.toNat) →
    ∃ ts, Derives (.seq ts) xs ∧ ts.map Tree.bare = cs.map fun c => .char (.point 0) c.toNat := by
  induction cs using List.reverseRecOn with
  | nil =>
    intro xs hxs
    obtain rfl := List.map_eq_nil_iff.mp hxs
    exact ⟨[], .nil, rfl⟩
  | append_singleton cs c ih =>
    intro xs hxs
    rw [List.map_append] at hxs
    obtain ⟨ys, zs, rfl, hys, hzs⟩ := List.map_eq_append_iff.mp hxs
    obtain ⟨x, rfl, hx⟩ := List.map_eq_singleton_iff.mp hzs
    obtain ⟨ts, hts, hbare⟩ := ih hys
    obtain ⟨token, r⟩ := x
    obtain rfl : token = .char c.toNat := hx
    refine ⟨ts ++ [.char r c.toNat], .snoc hts (.plain (.operand (.char c.toNat r))), ?_⟩
    rw [List.map_append, List.map_append, hbare]
    rfl

theorem parseText_quote (d : Dialect) (cs : List Char) :
    ∃ t, parseText d (quote cs) = (t, []) ∧ t.bare = Tree.ofText cs := by
  obtain ⟨ts, hts, hbare⟩ := derives_of_chars cs (lexFrom_quote d cs {} 0 rfl)
  have hfull : ∀ x ∈ lexemes d (quote cs), x.token.Full :=
    fun x hx => (lexFrom_written d {} 0 (quote cs) x hx).full
  have hread := (parseLexemes_eq_iff hfull (byteLength (quote cs)) _).mpr ⟨_, .single _ hts, rfl⟩
  exact ⟨_, hread, Tree.bare_sequence _ hbare⟩

/-- **A quoted text is read as the text itself**, in every dialect.  Nothing is wrong with it, its
constant text is the text that was quoted, and its tree is that of the literal text, but for the
places: the empty tree, one character, or a sequence of characters. -/
theorem parse_quote (d : Dialect) (text : String) (origin : Option Anchor) :
    ∃ re, Regex.parse (String.ofList (quote text.toList)) origin d = (re, []) ∧
      re.isValid = true ∧ re.constant? = some text.toList ∧
      re.root.bare = (literal text).root.bare ∧ re.root.bare = Tree.ofText text.toList := by
  obtain ⟨t, hparse, hbare⟩ := parseText_quote d text.toList
  refine ⟨_, by rw [Regex.parse, String.toList_ofList, hparse]; rfl, rfl, ?_, ?_, hbare⟩
  · change t.constant? = some text.toList
    rw [← Tree.constant?_bare, hbare, Tree.constant?_ofText]
  · exact hbare.trans (Tree.bare_literal text).symm

end GrammarTables.Regex
