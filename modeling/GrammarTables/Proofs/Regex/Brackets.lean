import GrammarTables.Proofs.Regex.Syntax
/-
# Reading bracket expressions

The reader keeps the class it has read, the last item if that was a character, and a hyphen after
such a character until the next token tells whether it makes a range (`Bracket.Holds`).  Every token
either extends the items that were read (`Bracket.Holds.step`) or is noted, and items written as the
grammar wants them are read without a note (`ReadState.read_items`).
-/

namespace GrammarTables.Regex

/-! ## 1. Lists of items -/

theorem classOf_snoc (items : List ClassItem) (i : ClassItem) :
    classOf (items ++ [i]) = (classOf items).add i.chars := by
  simp [classOf]

/-- The lower end of a range adds nothing to the range. -/
theorem add_single_add_range (k : CharClass) {lo hi : Nat} (h : lo ≤ hi) :
    (k.add (.of (.single lo))).add (.of (.range lo hi)) = k.add (.of (.range lo hi)) := by
  have hmembers : (k.members.union (.single lo)).union (.range lo hi)
      = k.members.union (.range lo hi) := by
    refine CharSet.ext fun c => ?_
    simp only [CharSet.mem_union, CharSet.mem_single, CharSet.mem_range]
    constructor
    · rintro ((hc | rfl) | hc)
      · exact .inl hc
      · exact .inr ⟨Nat.le_refl _, h⟩
      · exact .inr hc
    · rintro (hc | hc)
      · exact .inl (.inl hc)
      · exact .inr hc
  simp only [CharClass.add, CharClass.of, List.isEmpty_nil, if_true, Bool.false_eq_true, if_false]
  rw [hmembers]

/-- The items end with a character and a hyphen. -/
def Dangling (items : List ClassItem) : Prop := ∃ init c, items = init ++ [.char c, .hyphen]

theorem separate_snoc {items : List ClassItem} {i : ClassItem} (h : Separate items)
    (hi : Dangling items → i = .hyphen) : Separate (items ++ [i]) := by
  intro init c x rest heq
  rcases List.eq_nil_or_concat rest with rfl | ⟨rest, y, rfl⟩
  · have hsplit : items ++ [i] = (init ++ [.char c, .hyphen]) ++ [x] := by simpa using heq
    obtain ⟨hinit, hlast⟩ := List.append_inj' hsplit rfl
    obtain rfl : i = x := by simpa using hlast
    exact hi ⟨init, c, hinit⟩
  · have hsplit : items ++ [i] = (init ++ .char c :: .hyphen :: x :: rest) ++ [y] := by
      simpa using heq
    exact h init c x rest (List.append_inj' hsplit rfl).1

theorem Separate.of_append {items rest : List ClassItem} (h : Separate (items ++ rest)) :
    Separate items := by
  rintro init c x tail rfl
  exact h init c x (tail ++ rest) (by simp)

theorem Separate.of_dangling {items : List ClassItem} {i : ClassItem} (h : Separate (items ++ [i]))
    (hd : Dangling items) : i = .hyphen := by
  obtain ⟨init, c, rfl⟩ := hd
  exact h init c i [] (by simp)

theorem Bracketed.snoc {items : List ClassItem} {xs ys : List Lexeme} (h : Bracketed items xs)
    {i : ClassItem} (hd : Dangling items → i = .hyphen) (ho : i.Ordered)
    (hys : ys.map (·.token) = i.tokens) : Bracketed (items ++ [i]) (xs ++ ys) where
  tokens := by simp [h.tokens, hys]
  separate := separate_snoc h.separate hd
  ordered := by
    intro j hj
    rcases List.mem_append.mp hj with hj | hj
    · exact h.ordered j hj
    · exact List.mem_singleton.mp hj ▸ ho

namespace Bracket

/-! ## 2. What one token does -/

/-- A bracket expression of which the items were read.  A hyphen after a character is kept open until
the next token tells what it is. -/
inductive Holds (b : Bracket) : List ClassItem → Prop
  | settled {items : List ClassItem} : b.open? = none → b.chars = classOf items →
      (∀ c, b.last = some c ↔ ∃ init, items = init ++ [.char c]) → ¬ Dangling items → Holds b items
  | dangling {init : List ClassItem} {c : Nat} {r : TextRange} : b.open? = some (c, r) →
      b.chars = classOf (init ++ [.char c]) → Holds b (init ++ [.char c, .hyphen])

theorem holds_nil (start : Nat) (negated : Bool) : Holds { start, negated } [] :=
  .settled rfl rfl (by simp) (by rintro ⟨init, c, h⟩; simp at h)

theorem not_dangling_snoc {items : List ClassItem} {i : ClassItem} (h : i ≠ .hyphen) :
    ¬ Dangling (items ++ [i]) := by
  rintro ⟨init, c, heq⟩
  have hsplit : items ++ [i] = (init ++ [.char c]) ++ [.hyphen] := by simpa using heq
  exact h (by simpa using (List.append_inj' hsplit rfl).2)

theorem not_dangling_hyphens (items : List ClassItem) :
    ¬ Dangling (items ++ [.hyphen] ++ [.hyphen]) := by
  rintro ⟨init, c, heq⟩
  have hsplit : (items ++ [.hyphen]) ++ [.hyphen] = (init ++ [.char c]) ++ [.hyphen] := by
    simpa using heq
  have hinit := (List.append_inj' hsplit rfl).1
  simpa using (List.append_inj' hinit rfl).2

/-- After an item that is no character the last item is no character. -/
theorem holds_add {b : Bracket} {items : List ClassItem} {i : ClassItem}
    (hchars : b.chars = classOf items) (hchar : ∀ c, i ≠ .char c)
    (hd : ¬ Dangling (items ++ [i])) : (b.add i.chars).Holds (items ++ [i]) := by
  refine .settled rfl ?_ ?_ hd
  · rw [classOf_snoc, ← hchars]
    rfl
  · intro c
    refine ⟨fun h => by simp [Bracket.add] at h, fun ⟨init, h⟩ => ?_⟩
    exact absurd (by simpa using (List.append_inj' h rfl).2) (hchar c)

theorem Holds.settle_chars {b : Bracket} {items : List ClassItem} (h : b.Holds items) :
    b.settle.chars = classOf items := by
  cases h with
  | settled hopen hchars _ _ => simpa [Bracket.settle, hopen] using hchars
  | @dangling init c r hopen hchars =>
    have hsplit : init ++ [.char c, .hyphen] = (init ++ [.char c]) ++ [.hyphen] := by simp
    rw [hsplit, classOf_snoc, ← hchars]
    simp [Bracket.settle, hopen, Bracket.add, ClassItem.chars]

/-- The tree of a bracket expression, and the mistake of an empty one. -/
theorem Holds.close {b : Bracket} {items : List ClassItem} (h : b.Holds items) (stop : Nat) :
    b.close stop = (.set ⟨b.start, stop⟩ { classOf items with negated := b.negated },
      if (classOf items).isEmpty && !b.negated then [⟨.emptyClass, ⟨b.start, stop⟩⟩] else []) := by
  have hkeep : b.settle.start = b.start ∧ b.settle.negated = b.negated := by
    unfold Bracket.settle
    split <;> exact ⟨rfl, rfl⟩
  simp only [Bracket.close, h.settle_chars, hkeep.1, hkeep.2]

section Steps

variable {b : Bracket} {items : List ClassItem} (h : b.Holds items)

include h

/-- A character is an item of its own, unless a hyphen after a character stands before it. -/
theorem Holds.step_char (c : Nat) (r : TextRange) (hd : ¬ Dangling items) :
    (b.step ⟨.char c, r⟩).2 = [] ∧ (b.step ⟨.char c, r⟩).1.Holds (items ++ [.char c]) := by
  cases h with
  | settled hopen hchars _ _ =>
    simp only [Bracket.step, hopen, Bracket.settle, Bracket.item]
    refine ⟨trivial, .settled rfl ?_ ?_ (not_dangling_snoc (by simp))⟩
    · rw [classOf_snoc, ← hchars]
      rfl
    · intro c'
      simp [Bracket.addChar]
  | dangling _ _ => exact absurd ⟨_, _, rfl⟩ hd

theorem Holds.step_set (k : CharClass) (r : TextRange) (hd : ¬ Dangling items) :
    (b.step ⟨.set k, r⟩).2 = [] ∧ (b.step ⟨.set k, r⟩).1.Holds (items ++ [.set k]) := by
  cases h with
  | settled hopen hchars _ _ =>
    simp only [Bracket.step, hopen, Bracket.settle, Bracket.item]
    exact ⟨trivial, holds_add (i := .set k) hchars (by simp) (not_dangling_snoc (by simp))⟩
  | dangling _ _ => exact absurd ⟨_, _, rfl⟩ hd

theorem Holds.step_dash (r : TextRange) :
    (b.step ⟨.dash, r⟩).2 = [] ∧ (b.step ⟨.dash, r⟩).1.Holds (items ++ [.hyphen]) := by
  cases h with
  | settled hopen hchars hlast _ =>
    simp only [Bracket.step, hopen, Bracket.settle, Bracket.item]
    cases hl : b.last with
    | some lo =>
      obtain ⟨init, rfl⟩ := (hlast lo).mp hl
      refine ⟨rfl, ?_⟩
      rw [List.append_assoc]
      exact .dangling rfl hchars
    | none =>
      refine ⟨rfl, holds_add (i := .hyphen) hchars (by simp) ?_⟩
      rintro ⟨init, c, heq⟩
      have hsplit : items ++ [.hyphen] = (init ++ [.char c]) ++ [.hyphen] := by simpa using heq
      have := (hlast c).mpr ⟨init, (List.append_inj' hsplit rfl).1⟩
      rw [hl] at this
      cases this
  | @dangling init c r' hopen hchars =>
    -- the open hyphen becomes an item, and so does the new one
    have hsplit : init ++ [.char c, .hyphen] = (init ++ [.char c]) ++ [.hyphen] := by simp
    have hchars' : (b.add (.of (.single 0x2D))).chars =
        classOf (init ++ [.char c] ++ [.hyphen]) := by
      rw [classOf_snoc, ← hchars]
      rfl
    simp only [Bracket.step, hopen, Bracket.settle, Bracket.item]
    rw [hsplit]
    exact ⟨rfl, holds_add (i := .hyphen) hchars' (by simp) (not_dangling_hyphens _)⟩

end Steps

/-- A character after a character and a hyphen makes a range, if it is not below the first. -/
theorem Holds.step_range {b : Bracket} {init : List ClassItem} {lo : Nat}
    (h : b.Holds (init ++ [.char lo, .hyphen])) (hi : Nat) (r : TextRange) :
    ((b.step ⟨.char hi, r⟩).2 = [] ↔ lo ≤ hi) ∧
      (lo ≤ hi → (b.step ⟨.char hi, r⟩).1.Holds (init ++ [.range lo hi])) := by
  generalize hitems : init ++ [.char lo, .hyphen] = items at h
  cases h with
  | settled _ _ _ hd => exact absurd ⟨init, lo, hitems.symm⟩ hd
  | @dangling init' c r' hopen hchars =>
    obtain ⟨rfl, hlo⟩ := List.append_inj' hitems rfl
    obtain rfl : lo = c := by simpa using hlo
    simp only [Bracket.step, hopen]
    by_cases hle : hi < lo
    · refine ⟨by simp [hle], fun hge => ?_⟩
      omega
    · simp only [hle, if_false, true_iff]
      refine ⟨by omega, fun hle => .settled rfl ?_ ?_ (not_dangling_snoc (by simp))⟩
      · rw [classOf_snoc, ClassItem.chars, ← add_single_add_range _ hle, Bracket.add, hchars,
          classOf_snoc]
        rfl
      · intro c
        refine ⟨fun h => by simp [Bracket.add] at h, fun ⟨init, h⟩ => ?_⟩
        exact absurd (List.append_inj' h rfl).2 (by simp)

/-- A class after a character and a hyphen is noted. -/
theorem Holds.step_set_dangling {b : Bracket} {init : List ClassItem} {lo : Nat}
    (h : b.Holds (init ++ [.char lo, .hyphen])) (k : CharClass) (r : TextRange) :
    (b.step ⟨.set k, r⟩).2 ≠ [] := by
  generalize hitems : init ++ [.char lo, .hyphen] = items at h
  cases h with
  | settled _ _ _ hd => exact absurd ⟨init, lo, hitems.symm⟩ hd
  | dangling hopen _ => simp [Bracket.step, hopen]

/-- A token that is no item is noted. -/
theorem step_other (b : Bracket) {x : Lexeme} (hchar : ∀ c, x.token ≠ .char c)
    (hset : ∀ k, x.token ≠ .set k) (hdash : x.token ≠ .dash) : (b.step x).2 ≠ [] := by
  have hitem : ∀ b' : Bracket, (b'.item x).2 ≠ [] := by
    intro b'
    unfold Bracket.item
    split <;> simp_all
  unfold Bracket.step
  split
  · rename_i hx
    exact absurd hx (hchar _)
  · rename_i hx
    exact absurd hx (hset _)
  · exact hitem _

theorem step_keeps (b : Bracket) (x : Lexeme) :
    (b.step x).1.start = b.start ∧ (b.step x).1.negated = b.negated := by
  have hsettle : b.settle.start = b.start ∧ b.settle.negated = b.negated := by
    unfold Bracket.settle
    split <;> exact ⟨rfl, rfl⟩
  have hitem : ∀ b' : Bracket, (b'.item x).1.start = b'.start ∧
      (b'.item x).1.negated = b'.negated := by
    intro b'
    unfold Bracket.item
    repeat' split
    all_goals exact ⟨rfl, rfl⟩
  unfold Bracket.step
  split
  · split <;> exact ⟨rfl, rfl⟩
  · exact ⟨rfl, rfl⟩
  · rw [(hitem _).1, (hitem _).2]
    exact hsettle

end Bracket

/-- What a token that was not noted adds to the items. -/
theorem Bracket.Holds.step {b : Bracket} {items : List ClassItem} {ys : List Lexeme}
    (h : b.Holds items) (hys : Bracketed items ys) {x : Lexeme} (hclean : (b.step x).2 = []) :
    ∃ items', (b.step x).1.Holds items' ∧ Bracketed items' (ys ++ [x]) := by
  obtain ⟨token, r⟩ := x
  have hsnoc : ∀ {i : ClassItem}, (b.step ⟨token, r⟩).1.Holds (items ++ [i]) →
      (Dangling items → i = .hyphen) → i.Ordered → [token] = i.tokens →
      ∃ items', (b.step ⟨token, r⟩).1.Holds items' ∧ Bracketed items' (ys ++ [⟨token, r⟩]) :=
    fun hh hd ho ht => ⟨_, hh, hys.snoc hd ho ht⟩
  cases token with
  | char c =>
    by_cases hd : Dangling items
    · obtain ⟨init, lo, rfl⟩ := hd
      obtain ⟨hiff, hholds⟩ := h.step_range c r
      have hle := hiff.mp hclean
      refine ⟨_, hholds hle, ?_, ?_, ?_⟩
      · simp [hys.tokens, ClassItem.tokens]
      · -- what stands before the range does not end with a character and a hyphen
        have hchar : Separate (init ++ [.char lo]) :=
          @Separate.of_append _ [.hyphen] (by simpa using hys.separate)
        refine separate_snoc hchar.of_append fun hd => ?_
        cases hchar.of_dangling hd
      · intro i hi
        rcases List.mem_append.mp hi with hi | hi
        · exact hys.ordered i (List.mem_append_left _ hi)
        · exact List.mem_singleton.mp hi ▸ hle
    · exact hsnoc (h.step_char c r hd).2 (fun hd' => absurd hd' hd) trivial rfl
  | set k =>
    by_cases hd : Dangling items
    · obtain ⟨init, lo, rfl⟩ := hd
      exact absurd hclean (h.step_set_dangling k r)
    · exact hsnoc (h.step_set k r hd).2 (fun hd' => absurd hd' hd) trivial rfl
  | dash => exact hsnoc (h.step_dash r).2 (fun _ => rfl) trivial rfl
  | _ => exact absurd hclean (b.step_other (by simp) (by simp) (by simp))

/-! ## 3. Whole items -/

namespace ReadState

theorem step_of_bracket {st : ReadState} {b : Bracket} (hb : st.bracket = some b) {x : Lexeme}
    (hx : x.token ≠ .closeClass) : st.step x =
      { st with bracket := some (b.step x).1, issues := (b.step x).2.reverse ++ st.issues } := by
  unfold ReadState.step
  rw [hb]
  simp only [ReadState.classStep]

/-- The reader after a token of a bracket expression that was not noted. -/
theorem step_of_clean {st : ReadState} {b : Bracket} (hb : st.bracket = some b) {x : Lexeme}
    (hx : x.token ≠ .closeClass) (hclean : (b.step x).2 = []) :
    st.step x = { st with bracket := some (b.step x).1 } := by
  rw [step_of_bracket hb hx, hclean]
  rfl

/-- The reader after an item of a bracket expression. -/
theorem read_item {b : Bracket} {items : List ClassItem} (h : b.Holds items) {st : ReadState}
    (hb : st.bracket = some b) {i : ClassItem} (hd : Dangling items → i = .hyphen)
    (ho : i.Ordered) {ys : List Lexeme} (hys : ys.map (·.token) = i.tokens) :
    ∃ b', ys.foldl ReadState.step st = { st with bracket := some b' } ∧ b'.Holds (items ++ [i]) ∧
      b'.start = b.start ∧ b'.negated = b.negated := by
  have hsingle : ∀ {token : Token} {r : TextRange}, ys = [⟨token, r⟩] → token ≠ .closeClass →
      (b.step ⟨token, r⟩).2 = [] ∧ (b.step ⟨token, r⟩).1.Holds (items ++ [i]) →
      ∃ b', ys.foldl ReadState.step st = { st with bracket := some b' } ∧
        b'.Holds (items ++ [i]) ∧ b'.start = b.start ∧ b'.negated = b.negated := by
    rintro token r rfl hne ⟨hclean, hholds⟩
    exact ⟨_, step_of_clean hb hne hclean, hholds, b.step_keeps _⟩
  have hlone : ∀ {token : Token}, ys.map (·.token) = [token] → ∃ r, ys = [⟨token, r⟩] := by
    intro token heq
    obtain ⟨x, rfl, rfl⟩ := List.map_eq_singleton_iff.mp heq
    exact ⟨x.range, rfl⟩
  cases i with
  | char c =>
    obtain ⟨r, hr⟩ := hlone hys
    exact hsingle hr (by simp) (h.step_char c r fun hd' => by cases hd hd')
  | set k =>
    obtain ⟨r, hr⟩ := hlone hys
    exact hsingle hr (by simp) (h.step_set k r fun hd' => by cases hd hd')
  | hyphen =>
    obtain ⟨r, hr⟩ := hlone hys
    exact hsingle hr (by simp) (h.step_dash r)
  | range lo hi =>
    match ys, hys with
    | [⟨_, r₁⟩, ⟨_, r₂⟩, ⟨_, r₃⟩], hys =>
      cases hys
      obtain ⟨hclean₁, h₁⟩ := h.step_char lo r₁ fun hd' => by cases hd hd'
      obtain ⟨hclean₂, h₂⟩ := h₁.step_dash r₂
      rw [List.append_assoc] at h₂
      obtain ⟨hiff, h₃⟩ := h₂.step_range hi r₃
      refine ⟨_, ?_, h₃ ho, ?_, ?_⟩
      · rw [List.foldl_cons, step_of_clean hb (by simp) hclean₁, List.foldl_cons,
          step_of_clean rfl (by simp) hclean₂, List.foldl_cons,
          step_of_clean rfl (by simp) (hiff.mpr ho), List.foldl_nil]
      · rw [(Bracket.step_keeps _ _).1, (Bracket.step_keeps _ _).1, (Bracket.step_keeps _ _).1]
      · rw [(Bracket.step_keeps _ _).2, (Bracket.step_keeps _ _).2, (Bracket.step_keeps _ _).2]

/-- The reader after some items of a bracket expression. -/
theorem read_items (rest : List ClassItem) : ∀ {b : Bracket} {items : List ClassItem}
    {st : ReadState} {xs : List Lexeme}, st.bracket = some b → b.Holds items →
    Separate (items ++ rest) → (∀ i ∈ rest, i.Ordered) →
    xs.map (·.token) = rest.flatMap ClassItem.tokens →
    ∃ b', xs.foldl ReadState.step st = { st with bracket := some b' } ∧ b'.Holds (items ++ rest) ∧
      b'.start = b.start ∧ b'.negated = b.negated := by
  induction rest with
  | nil =>
    intro b items st xs hb h _ _ hxs
    obtain rfl := List.map_eq_nil_iff.mp hxs
    exact ⟨b, by rw [List.foldl_nil, ← hb], by simpa using h, rfl, rfl⟩
  | cons i rest ih =>
    intro b items st xs hb h hsep hord hxs
    obtain ⟨ys, zs, rfl, hys, hzs⟩ := List.map_eq_append_iff.mp hxs
    have hsplit : items ++ i :: rest = items ++ [i] ++ rest := by simp
    rw [hsplit] at hsep ⊢
    obtain ⟨b₁, hread, h₁, hstart, hneg⟩ :=
      read_item h hb hsep.of_append.of_dangling (hord i List.mem_cons_self) hys
    obtain ⟨b₂, hread', h₂, hstart', hneg'⟩ := @ih b₁ _ { st with bracket := some b₁ } zs rfl h₁
      hsep (fun j hj => hord j (List.mem_cons_of_mem i hj)) hzs
    refine ⟨b₂, ?_, h₂, hstart'.trans hstart, hneg'.trans hneg⟩
    rw [List.foldl_append, hread, hread']

end ReadState

end GrammarTables.Regex
