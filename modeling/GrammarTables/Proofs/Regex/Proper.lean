import GrammarTables.Proofs.CharSet
import GrammarTables.Regex.Basic
/-
# Trees that were read from a text

Reading a regular expression gives a proper tree, whatever the text: single characters are
Unicode code points, the members of classes are Unicode code points, and no repetition asks for
fewer copies at most than at least.  The tokens are proper, each step of the reader keeps the
trees it holds proper, and so does closing what is still open.
-/

namespace GrammarTables

/-! ## 1. Proper classes and trees -/

theorem CharSet.isUnicode_union {s t : CharSet} (hs : s.IsUnicode) (ht : t.IsUnicode) :
    (s.union t).IsUnicode := by
  intro c hc
  rcases mem_union.mp hc with hc | hc
  · exact hs c hc
  · exact ht c hc

theorem CharSet.isUnicode_compl (s : CharSet) : s.compl.IsUnicode :=
  fun _ hc => (mem_compl.mp hc).1

theorem CharSet.isUnicode_single {c : Nat} (h : c ≤ maxCodePoint) : (single c).IsUnicode :=
  fun _ hd => (mem_single.mp hd) ▸ h

namespace CharClass

/-- Taking the complements of some sets in adds Unicode code points only. -/
theorem isUnicode_foldl_compl (fold : CharSet → CharSet) (xs : List CharSet) :
    ∀ {s : CharSet}, s.IsUnicode →
      (xs.foldl (fun s x => s.union (fold x).compl) s).IsUnicode := by
  induction xs with
  | nil => intro s hs; exact hs
  | cons x rest ih =>
    intro s hs
    exact ih (CharSet.isUnicode_union hs (CharSet.isUnicode_compl _))

theorem isUnicode_resolve {k : CharClass} {fold : CharSet → CharSet}
    (h : (fold k.members).IsUnicode) : (k.resolve fold).IsUnicode := by
  unfold resolve
  split
  · exact CharSet.isUnicode_compl _
  · exact isUnicode_foldl_compl fold k.excluded h

theorem isUnicode_add {k item : CharClass} (hk : k.members.IsUnicode)
    (hitem : item.members.IsUnicode) : (k.add item).members.IsUnicode := by
  unfold add
  split
  · split
    · exact hk
    · exact CharSet.isUnicode_union hk hitem
  · exact CharSet.isUnicode_union hk (isUnicode_resolve hitem)

end CharClass

namespace Regex

/-- What a proper tree satisfies at its root. -/
def Tree.NodeProper : Tree → Prop
  | .char _ c => c ≤ maxCodePoint
  | .set _ k => k.members.IsUnicode
  | .repeated _ _ min max => ∀ m ∈ max, min ≤ m
  | .empty _ | .any _ | .eoi _ | .expand _ _ | .seq _ _ | .alt _ _ | .group _ _ _
  | .notFollowedBy _ _ | .algebra _ _ _ _ | .placeholder _ => True

/-- Every part of the tree is as reading leaves it. -/
def Tree.Proper (t : Tree) : Prop := ∀ u ∈ t.preorder, u.NodeProper

namespace Tree

attribute [local simp] preorder preorderAll NodeProper

theorem mem_preorderAll {u : Tree} : ∀ {ts : List Tree},
    u ∈ preorderAll ts ↔ ∃ t ∈ ts, u ∈ t.preorder
  | [] => by simp
  | t :: ts => by
    rw [preorderAll, List.mem_append, mem_preorderAll]
    simp

theorem proper_seq {r : TextRange} {items : List Tree} :
    (seq r items).Proper ↔ ∀ t ∈ items, t.Proper := by
  simp only [Proper, preorder, List.mem_cons, forall_eq_or_imp, NodeProper, true_and,
    mem_preorderAll]
  exact ⟨fun h t ht u hu => h u ⟨t, ht, hu⟩, fun h u ⟨t, ht, hu⟩ => h t ht u hu⟩

theorem proper_alt {r : TextRange} {items : List Tree} :
    (alt r items).Proper ↔ ∀ t ∈ items, t.Proper := by
  simp only [Proper, preorder, List.mem_cons, forall_eq_or_imp, NodeProper, true_and,
    mem_preorderAll]
  exact ⟨fun h t ht u hu => h u ⟨t, ht, hu⟩, fun h u ⟨t, ht, hu⟩ => h t ht u hu⟩

theorem proper_group {r : TextRange} {flags : Option FlagChange} {inner : Tree} :
    (group r flags inner).Proper ↔ inner.Proper := by
  simp [Proper]

theorem proper_notFollowedBy {r : TextRange} {inner : Tree} :
    (notFollowedBy r inner).Proper ↔ inner.Proper := by
  simp [Proper]

theorem proper_repeated {r : TextRange} {inner : Tree} {min : Nat} {max : Option Nat} :
    (repeated r inner min max).Proper ↔ (∀ m ∈ max, min ≤ m) ∧ inner.Proper := by
  simp only [Proper, preorder, List.mem_cons, forall_eq_or_imp, NodeProper]

theorem proper_algebra {r : TextRange} {op : SetOp} {left right : Tree} :
    (algebra r op left right).Proper ↔ left.Proper ∧ right.Proper := by
  simp only [Proper, preorder, List.mem_cons, forall_eq_or_imp, NodeProper, true_and,
    List.mem_append]
  exact ⟨fun h => ⟨fun u hu => h u (Or.inl hu), fun u hu => h u (Or.inr hu)⟩,
    fun h u hu => hu.elim (h.1 u) (h.2 u)⟩

theorem proper_char {r : TextRange} {c : Nat} : (char r c).Proper ↔ c ≤ maxCodePoint := by
  simp [Proper]

theorem proper_set {r : TextRange} {k : CharClass} :
    (set r k).Proper ↔ k.members.IsUnicode := by
  simp [Proper]

theorem proper_placeholder (r : TextRange) : (placeholder r).Proper := by
  simp [Proper]

theorem proper_empty (r : TextRange) : (empty r).Proper := by
  simp [Proper]

end Tree

/-! ## 2. Tokens -/

/-- The characters that a token stands for are Unicode code points. -/
def Token.Proper : Token → Prop
  | .char c => c ≤ maxCodePoint
  | .set k => k.members.IsUnicode
  | _ => True

/-- What a text can say: a character is a Unicode code point, a class is a set of them that is not
empty, or the outside of one. -/
def Token.Written : Token → Prop
  | .char c => c ≤ maxCodePoint
  | .set k => ∃ s : CharSet, s.IsUnicode ∧ (∃ c, c ∈ s) ∧ (k = .of s ∨ k = .outside s)
  | _ => True

theorem Token.Written.proper {t : Token} (h : t.Written) : t.Proper := by
  cases t with
  | set k =>
    obtain ⟨s, hs, -, rfl | rfl⟩ := h
    · exact hs
    · exact hs
  | char c => exact h
  | _ => trivial

theorem toNat_le_maxCodePoint (c : Char) : c.toNat ≤ maxCodePoint := by
  have h : c.toNat < 0xD800 ∨ (0xDFFF < c.toNat ∧ c.toNat < 0x110000) := c.valid
  simp only [maxCodePoint]
  omega

theorem isScalar_le {c : Nat} (h : isScalar c = true) : c ≤ maxCodePoint := by
  simp only [isScalar, Bool.or_eq_true, Bool.and_eq_true, decide_eq_true_eq] at h
  simp only [maxCodePoint] at *
  omega

theorem digitValue_of_isOctalDigit {c : Char} (h : isOctalDigit c = true) : digitValue c ≤ 7 := by
  simp only [isOctalDigit, Bool.and_eq_true, decide_eq_true_eq] at h
  have hlo : 48 ≤ c.toNat := h.1
  have hhi : c.toNat ≤ 55 := h.2
  have hdigit : c.isDigit = true := by
    simp only [Char.isDigit, Bool.and_eq_true, decide_eq_true_eq, ge_iff_le]
    exact ⟨h.1, Nat.le_trans hhi (by decide)⟩
  simp only [digitValue, hdigit, if_true]
  omega

theorem octalEscape_written {cs : List Char} {cut : Cut} (h : octalEscape cs = some cut) :
    cut.1.Written := by
  unfold octalEscape at h
  simp only [Bool.and_eq_true, decide_eq_true_eq] at h
  split at h
  · rename_i hdigits
    cases h
    obtain ⟨hlen, hall⟩ := hdigits
    match hd : (cs.drop 1).take 3 with
    | [a, b, c] =>
      rw [hd] at hall
      simp only [List.all_cons, List.all_nil, Bool.and_true, Bool.and_eq_true] at hall
      have ha := digitValue_of_isOctalDigit hall.1
      have hb := digitValue_of_isOctalDigit hall.2.1
      have hc := digitValue_of_isOctalDigit hall.2.2
      simp only [Token.Written, digitsValue, List.foldl_cons, List.foldl_nil, maxCodePoint]
      omega
    | [] | [_] | [_, _] | _ :: _ :: _ :: _ :: _ =>
      rw [hd] at hlen
      simp at hlen
  · cases h

theorem hexEscape_written {n : Nat} {cs : List Char} {cut : Cut} (h : hexEscape n cs = some cut) :
    cut.1.Written := by
  unfold hexEscape at h
  obtain ⟨value, -, rfl⟩ := Option.map_eq_some_iff.mp h
  simp only
  split
  · rename_i hscalar
    exact isScalar_le hscalar
  · trivial

theorem unfinished_written (d : Dialect) (cs : List Char) {shorter : Cut}
    (h : shorter.1.Written) : (d.unfinished cs shorter).1.Written := by
  unfold Dialect.unfinished
  split
  · trivial
  · exact h

theorem propertyEscape_written {d : Dialect} {negated : Bool} {cs : List Char} {cut : Cut}
    (h : propertyEscape d negated cs = some cut) : cut.1.Written := by
  unfold propertyEscape at h
  split at h
  · simp only at h
    split at h
    · cases h
    · split at h
      · cases h
        simp only
        split
        · rename_i s hs
          have hu := d.property_isUnicode hs
          have hc := d.property_nonempty hs
          cases negated with
          | true => exact ⟨s, hu, hc, .inr rfl⟩
          | false => exact ⟨s, hu, hc, .inl rfl⟩
        · trivial
      · obtain ⟨n, -, rfl⟩ := Option.map_eq_some_iff.mp h
        trivial
  · cases h

theorem word_written : CharSet.word.IsUnicode ∧ ∃ c, c ∈ CharSet.word :=
  ⟨CharSet.isUnicode_ofPairs (by decide), 0x30, by decide⟩

theorem space_written : CharSet.space.IsUnicode ∧ ∃ c, c ∈ CharSet.space :=
  ⟨CharSet.isUnicode_ofPairs (by decide), 0x20, by decide⟩

theorem digit_written : CharSet.digit.IsUnicode ∧ ∃ c, c ∈ CharSet.digit := by
  refine ⟨fun c hc => ?_, 0x30, by decide⟩
  have := CharSet.mem_range.mp hc
  simp only [maxCodePoint]
  omega

theorem letterEscape_written {d : Dialect} {c : Char} {cs : List Char} {cut : Cut}
    (h : letterEscape d c cs = some cut) : cut.1.Written := by
  unfold letterEscape at h
  split at h
  all_goals first
    | exact hexEscape_written h
    | exact propertyEscape_written h
    | exact octalEscape_written h
    | (cases h
       first
         | exact ⟨_, word_written.1, word_written.2, by simp⟩
         | exact ⟨_, space_written.1, space_written.2, by simp⟩
         | exact ⟨_, digit_written.1, digit_written.2, by simp⟩
         | (simp only [Token.Written, maxCodePoint]; omega))

theorem escape_written (d : Dialect) (cs : List Char) : (escape d cs).1.Written := by
  unfold escape
  split
  · trivial
  · simp only
    split
    · cases hl : letterEscape d _ cs with
      | none => trivial
      | some cut => exact letterEscape_written hl
    · split
      · trivial
      · exact toNat_le_maxCodePoint _

theorem countToken_written (slice low : List Char) (high : Option (List Char)) :
    (countToken slice low high).Written := by
  unfold countToken
  simp only
  split <;> trivial

theorem openBrace_written : openBrace.1.Written := by
  simp only [openBrace, Token.Written, maxCodePoint]
  omega

theorem brace_written (d : Dialect) (cs : List Char) : (brace d cs).1.Written := by
  unfold brace
  split
  · trivial
  · trivial
  · trivial
  · split
    · unfold counted
      simp only
      split
      · exact countToken_written _ _ _
      · split
        · exact countToken_written _ _ _
        · exact unfinished_written d _ openBrace_written
      · exact unfinished_written d _ openBrace_written
    · split
      · unfold named
        simp only
        split
        · simp only
          split <;> trivial
        · exact unfinished_written d _ openBrace_written
      · exact openBrace_written
  · exact openBrace_written

theorem parenthesis_written (d : Dialect) (cs : List Char) : (parenthesis d cs).1.Written := by
  unfold parenthesis
  split
  · trivial
  · simp only
    split
    · trivial
    · split
      · trivial
      · exact unfinished_written d _ trivial
  · trivial

theorem bodyCut_written (d : Dialect) (c : Char) (cs : List Char) :
    (bodyCut d c cs).1.Written := by
  unfold bodyCut
  split
  · exact escape_written d _
  · exact brace_written d _
  · exact parenthesis_written d _
  · trivial
  · trivial
  · trivial
  · trivial
  · trivial
  · trivial
  · split <;> trivial
  · exact unfinished_written d _ trivial
  · exact toNat_le_maxCodePoint c

theorem classCut_written (d : Dialect) (c : Char) (cs : List Char) :
    (classCut d c cs).1.Written := by
  unfold classCut
  split
  · exact escape_written d _
  · trivial
  · trivial
  · exact toNat_le_maxCodePoint c

theorem asOperand_written {t : Token} (h : t.Written) : t.asOperand.Written := by
  unfold Token.asOperand
  split
  · simp only [Token.Written, maxCodePoint]; omega
  · simp only [Token.Written, maxCodePoint]; omega
  · simp only [Token.Written, maxCodePoint]; omega
  · exact h

theorem cut_written (d : Dialect) (st : LexState) (c : Char) (cs : List Char) :
    (st.cut d c cs).1.Written := by
  have h : (if st.inClass then classCut d c cs else bodyCut d c cs).1.Written := by
    split
    · exact classCut_written d c cs
    · exact bodyCut_written d c cs
  unfold LexState.cut
  simp only
  split
  · exact h
  · exact asOperand_written h

/-- **What the tokens of a text say.** -/
theorem lexFrom_written (d : Dialect) (st : LexState) (offset : Nat) (cs : List Char) :
    ∀ x ∈ lexFrom d st offset cs, x.token.Written := by
  fun_induction lexFrom d st offset cs with
  | case1 => simp
  | case2 st offset c cs t n hcut stop ih =>
    intro x hx
    rcases List.mem_cons.mp hx with rfl | hx
    · have h := cut_written d st c cs
      rw [hcut] at h
      exact h
    · exact ih x hx

/-! ## 3. The reader -/

/-- The tree that a term is so far. -/
def Pending.Proper : Pending → Prop
  | .none => True
  | .operand t | .quantified t => t.Proper
  | .awaiting left _ => left.Proper

/-- All trees of an alternation that is being read are proper. -/
structure Level.Proper (l : Level) : Prop where
  alternatives : ∀ t ∈ l.alternatives, t.Proper
  items : ∀ t ∈ l.items, t.Proper
  pending : l.pending.Proper

namespace Level

theorem proper_nil : Level.Proper {} := ⟨by simp, by simp, trivial⟩

theorem Proper.primary {l : Level} (h : l.Proper) {t : Tree} (ht : t.Proper) :
    (l.primary t).Proper := by
  have hp := h.pending
  unfold Level.primary
  split
  · exact ⟨h.alternatives, h.items, ht⟩
  · rename_i u hu
    rw [hu] at hp
    exact ⟨h.alternatives, List.forall_mem_cons.mpr ⟨hp, h.items⟩, ht⟩
  · rename_i u hu
    rw [hu] at hp
    exact ⟨h.alternatives, List.forall_mem_cons.mpr ⟨hp, h.items⟩, ht⟩
  · rename_i left op hl
    rw [hl] at hp
    exact ⟨h.alternatives, h.items, Tree.proper_algebra.mpr ⟨hp, ht⟩⟩

theorem Proper.terms {l : Level} (h : l.Proper) (offset : Nat) :
    ∀ t ∈ (l.terms offset).1, t.Proper := by
  have hp := h.pending
  unfold Level.terms
  split
  · exact h.items
  · rename_i t ht
    rw [ht] at hp
    exact List.forall_mem_cons.mpr ⟨hp, h.items⟩
  · rename_i t ht
    rw [ht] at hp
    exact List.forall_mem_cons.mpr ⟨hp, h.items⟩
  · rename_i left op hl
    rw [hl] at hp
    exact List.forall_mem_cons.mpr
      ⟨Tree.proper_algebra.mpr ⟨hp, Tree.proper_placeholder _⟩, h.items⟩

theorem sequence_proper {ts : List Tree} (h : ∀ t ∈ ts, t.Proper) (offset : Nat) :
    (sequence ts offset).Proper := by
  unfold sequence
  split
  · exact Tree.proper_empty _
  · exact h _ (by simp)
  · exact Tree.proper_seq.mpr h

theorem Proper.lastAlternative {l : Level} (h : l.Proper) (offset : Nat) :
    (l.lastAlternative offset).1.Proper := by
  unfold Level.lastAlternative
  exact sequence_proper (fun t ht => h.terms offset t (List.mem_reverse.mp ht)) offset

theorem Proper.bar {l : Level} (h : l.Proper) (offset : Nat) : (l.bar offset).1.Proper :=
  ⟨List.forall_mem_cons.mpr ⟨h.lastAlternative offset, h.alternatives⟩, by simp [Level.bar],
    trivial⟩

theorem Proper.close {l : Level} (h : l.Proper) (offset : Nat) : (l.close offset).1.Proper := by
  have hlast := h.lastAlternative offset
  have halts := h.alternatives
  unfold Level.close
  simp only
  split
  · exact hlast
  · refine Tree.proper_alt.mpr fun t ht => ?_
    rcases List.mem_cons.mp (List.mem_reverse.mp ht) with rfl | ht
    · exact hlast
    · exact halts t ht

theorem Proper.quantify {l : Level} (h : l.Proper) (min : Nat) (max : Option Nat)
    (range : TextRange) : (l.quantify min max range).1.Proper := by
  have hp := h.pending
  have hterm : ∀ {t : Tree} {whole : TextRange} {max : Option Nat}, t.Proper →
      (∀ m ∈ max, min ≤ m) → { l with pending := .quantified (.repeated whole t min max) }.Proper :=
    fun ht hmax => ⟨h.alternatives, h.items, Tree.proper_repeated.mpr ⟨hmax, ht⟩⟩
  unfold Level.quantify
  cases hpending : l.pending with
  | none => exact h.primary (Tree.proper_placeholder _)
  | awaiting _ _ => exact h.primary (Tree.proper_placeholder _)
  | operand t | quantified t =>
    rw [hpending] at hp
    cases max with
    | none => exact hterm hp (by simp)
    | some m =>
      -- a bad upper bound is replaced by the lower one
      by_cases hm : m < min
      · simp only [hm, if_true]
        exact hterm hp (by simp)
      · simp only [hm, if_false]
        exact hterm hp (by simpa using hm)

theorem Proper.operator {l : Level} (h : l.Proper) (op : SetOp) (range : TextRange) :
    (l.operator op range).1.Proper := by
  have hp := h.pending
  unfold Level.operator
  split
  · rename_i t ht
    rw [ht] at hp
    exact ⟨h.alternatives, h.items, hp⟩
  · exact h.primary (Tree.proper_placeholder _)
  · exact h.primary (Tree.proper_placeholder _)
  · exact h.primary (Tree.proper_placeholder _)

end Level

/-- What a bracket expression holds so far is Unicode. -/
structure Bracket.Proper (b : Bracket) : Prop where
  chars : b.chars.members.IsUnicode

namespace Bracket

theorem Proper.add {b : Bracket} (h : b.Proper) {k : CharClass} (hk : k.members.IsUnicode) :
    (b.add k).Proper :=
  ⟨CharClass.isUnicode_add h.chars hk⟩

theorem Proper.settle {b : Bracket} (h : b.Proper) : b.settle.Proper := by
  unfold Bracket.settle
  split
  · exact h.add (CharSet.isUnicode_single (by simp only [maxCodePoint]; omega))
  · exact h

theorem Proper.item {b : Bracket} (h : b.Proper) {x : Lexeme} (hx : x.token.Proper) :
    (b.item x).1.Proper := by
  unfold Bracket.item
  split
  · rename_i c hc
    rw [hc] at hx
    exact ⟨(h.add (CharSet.isUnicode_single hx)).chars⟩
  · rename_i k hk
    rw [hk] at hx
    exact h.add hx
  · split
    · exact ⟨h.chars⟩
    · exact h.add (CharSet.isUnicode_single (by simp only [maxCodePoint]; omega))
  · exact ⟨h.chars⟩
  · exact ⟨h.chars⟩

theorem Proper.step {b : Bracket} (h : b.Proper) {x : Lexeme} (hx : x.token.Proper) :
    (b.step x).1.Proper := by
  unfold Bracket.step
  split
  · rename_i hi _ hc
    rw [hc] at hx
    split
    · exact ⟨h.chars⟩
    · refine h.add fun c hc => ?_
      exact Nat.le_trans (CharSet.mem_range.mp hc).2 hx
  · exact ⟨h.chars⟩
  · exact h.settle.item hx

end Bracket

/-- All trees that the reader holds are proper. -/
structure ReadState.Proper (st : ReadState) : Prop where
  before : ∀ t ∈ st.before, t.Proper
  groups : ∀ g ∈ st.groups, g.outer.Proper
  level : st.level.Proper
  bracket : ∀ b ∈ st.bracket, b.Proper

theorem groupTree_proper {kind : GroupKind} {range : TextRange} {t : Tree} (h : t.Proper) :
    (kind.tree range t).Proper := by
  unfold GroupKind.tree
  split
  · exact Tree.proper_group.mpr h
  · exact Tree.proper_group.mpr h
  · exact Tree.proper_notFollowedBy.mpr h

namespace ReadState

theorem joined_proper {before : Option Tree} (hb : ∀ t ∈ before, t.Proper) {t : Tree}
    (ht : t.Proper) : (joined before t).Proper := by
  unfold joined
  split
  · exact ht
  · refine Tree.proper_seq.mpr fun u hu => ?_
    simp only [List.mem_cons, List.not_mem_nil, or_false] at hu
    rcases hu with rfl | rfl
    · exact hb _ rfl
    · exact ht

theorem Proper.put {st : ReadState} (h : st.Proper) {result : Level × List Issue}
    (hr : result.1.Proper) : (st.put result).Proper :=
  ⟨h.before, h.groups, hr, h.bracket⟩

theorem Proper.closeGroup {st : ReadState} (h : st.Proper) (range : TextRange) :
    (st.closeGroup range).Proper := by
  have hclose := h.level.close range.start
  have hgroups := h.groups
  unfold ReadState.closeGroup
  simp only
  split
  · rename_i g rest hg
    rw [hg] at hgroups
    obtain ⟨hg, hrest⟩ := List.forall_mem_cons.mp hgroups
    exact ⟨h.before, hrest, hg.primary (groupTree_proper hclose), h.bracket⟩
  · refine ⟨?_, hgroups, Level.proper_nil, h.bracket⟩
    intro t ht
    cases ht
    exact joined_proper h.before hclose

theorem Proper.bodyStep {st : ReadState} (h : st.Proper) {x : Lexeme} (hx : x.token.Proper) :
    (st.bodyStep x).Proper := by
  have hl := h.level
  have htree : ∀ {t : Tree}, (∀ u ∈ t.preorder, u.NodeProper) →
      (st.put (st.level.primary t, [])).Proper := fun ht => h.put (hl.primary ht)
  unfold ReadState.bodyStep
  simp only
  split
  · rename_i c hc
    rw [hc] at hx
    exact h.put (hl.primary (Tree.proper_char.mpr hx))
  · rename_i k hk
    rw [hk] at hx
    exact h.put (hl.primary (Tree.proper_set.mpr hx))
  · exact htree (by simp [Tree.preorder, Tree.NodeProper])
  · exact htree (by simp [Tree.preorder, Tree.NodeProper])
  · exact htree (by simp [Tree.preorder, Tree.NodeProper])
  · exact h.put (hl.quantify _ _ _)
  · exact h.put (hl.quantify _ _ _)
  · exact h.put (hl.quantify _ _ _)
  · exact h.put (hl.quantify _ _ _)
  · exact h.put (hl.operator _ _)
  · exact h.put (hl.bar _)
  · exact ⟨h.before, List.forall_mem_cons.mpr ⟨hl, h.groups⟩, Level.proper_nil, h.bracket⟩
  · exact h.closeGroup _
  · refine ⟨h.before, h.groups, hl, fun b hb => ?_⟩
    cases hb
    exact ⟨fun c hc => absurd hc (CharSet.not_mem_empty c)⟩
  · exact h.put (hl.primary (Tree.proper_placeholder _))
  · exact h.put (hl.primary (Tree.proper_placeholder _))
  · exact h.put (hl.primary (Tree.proper_placeholder _))

theorem Proper.classStep {st : ReadState} (h : st.Proper) {b : Bracket} (hb : b.Proper)
    {x : Lexeme} (hx : x.token.Proper) : (st.classStep b x).Proper := by
  unfold ReadState.classStep
  split
  · have hset := (Tree.proper_set (r := ⟨b.settle.start, x.range.stop⟩)
      (k := { b.settle.chars with negated := b.settle.negated })).mpr hb.settle.chars
    exact ⟨h.before, h.groups, h.level.primary hset, by simp⟩
  · refine ⟨h.before, h.groups, h.level, fun b' hb' => ?_⟩
    cases hb'
    exact hb.step hx

theorem Proper.step {st : ReadState} (h : st.Proper) {x : Lexeme} (hx : x.token.Proper) :
    (st.step x).Proper := by
  unfold ReadState.step
  split
  · rename_i b hb
    exact h.classStep (h.bracket b hb) hx
  · exact h.bodyStep hx

theorem Proper.foldl_step (xs : List Lexeme) : ∀ {st : ReadState}, st.Proper →
    (∀ x ∈ xs, x.token.Proper) → (xs.foldl ReadState.step st).Proper := by
  induction xs with
  | nil => intro st h _; exact h
  | cons x rest ih =>
    intro st h hxs
    obtain ⟨hx, hrest⟩ := List.forall_mem_cons.mp hxs
    exact ih (h.step hx) hrest

theorem Proper.endBracket {st : ReadState} (h : st.Proper) (size : Nat) :
    (st.endBracket size).Proper := by
  unfold ReadState.endBracket
  split
  · exact ⟨h.before, h.groups, h.level.primary (Tree.proper_placeholder _), by simp⟩
  · exact h

theorem endGroups_proper (size : Nat) : ∀ {groups : List OpenGroup} {l : Level}
    {issues : List Issue}, (∀ g ∈ groups, g.outer.Proper) → l.Proper →
    (endGroups size groups l issues).1.Proper
  | [], l, issues, _, hl => hl.close size
  | g :: rest, l, issues, hgroups, hl => by
    obtain ⟨hg, hrest⟩ := List.forall_mem_cons.mp hgroups
    exact @endGroups_proper size rest _ _ hrest
      (hg.primary (groupTree_proper (hl.close size)))

theorem Proper.finish {st : ReadState} (h : st.Proper) (size : Nat) :
    (st.finish size).1.Proper := by
  have hend := h.endBracket size
  exact joined_proper hend.before (endGroups_proper size hend.groups hend.level)

end ReadState

/-- **Reading a text gives a proper tree**, whatever is wrong with the text. -/
theorem parseText_proper (d : Dialect) (text : List Char) : (parseText d text).1.Proper := by
  have hstart : ReadState.Proper {} := ⟨by simp, by simp, Level.proper_nil, by simp⟩
  exact (hstart.foldl_step _ fun x hx => (lexFrom_written d {} 0 text x hx).proper).finish _

/-! ## 4. Regular expressions -/

/-- The ways to make a regular expression: to read one, in any dialect, or to take a text
literally. -/
inductive FromText : Regex → Prop
  | parse {d : Dialect} (text : String) (origin : Option Anchor) :
    FromText (Regex.parse text origin d).1
  | literal (text : String) : FromText (Regex.literal text)

theorem charTrees_proper : ∀ (cs : List Char) (offset : Nat),
    ∀ t ∈ charTrees offset cs, t.Proper
  | [], _ => by simp [charTrees]
  | c :: cs, offset => by
    refine List.forall_mem_cons.mpr ⟨?_, charTrees_proper cs _⟩
    exact Tree.proper_char.mpr (toNat_le_maxCodePoint c)

theorem FromText.proper {re : Regex} (h : FromText re) : re.root.Proper := by
  cases h with
  | parse text origin => exact parseText_proper _ text.toList
  | literal text =>
    have hall := charTrees_proper text.toList 0
    unfold Regex.literal
    simp only
    split
    · exact Tree.proper_empty _
    · rename_i t ht
      rw [ht] at hall
      exact hall t (by simp)
    · exact Tree.proper_seq.mpr hall

end Regex

end GrammarTables
