import Mathlib.Order.Basic
import Mathlib.Data.Nat.Basic
import Mathlib.Data.List.Forall2
import GrammarTables.Proofs.Regex.Syntax
/-
# Places in the text of a regular expression

Whatever is wrong with a text, the tokens it is cut into take its bytes one after the other
(`lexFrom_tiles`), and every part of its tree and every mistake has an exact place: a range of the
text that begins and ends between characters.  The parts of a node lie inside it, in order and
apart.

The reader holds trees that lie one after the other up to the place where it is (`ReadState.Held`).
Each token begins there, and each step adds what the token says, or closes something that was
opened before.  So anchors of findings are those of the ranges, and are never drawn in
(`parse_places`).
-/

namespace GrammarTables

/-! ## 1. Line feeds -/

/-- No line feed begins before a place that is passed. -/
theorem newlinesBefore_of_le {limit : Nat} : ∀ {offset : Nat} (cs : List Char), limit ≤ offset →
    newlinesBefore limit offset cs = 0
  | _, [], _ => rfl
  | offset, c :: cs, h => by
    rw [newlinesBefore, newlinesBefore_of_le cs (Nat.le_add_right_of_le h),
      decide_eq_false (Nat.not_lt.mpr h)]
    rfl

namespace Regex

/-! ## 2. Bytes -/

theorem byteLength_nil : byteLength [] = 0 := rfl

theorem byteLength_cons (c : Char) (cs : List Char) :
    byteLength (c :: cs) = c.utf8Size + byteLength cs := by
  have hfoldl : ∀ (cs : List Char) (n : Nat),
      cs.foldl (fun n c => n + c.utf8Size) n = n + cs.foldl (fun n c => n + c.utf8Size) 0 := by
    intro cs
    induction cs with
    | nil => exact fun n => rfl
    | cons c cs ih =>
      intro n
      rw [List.foldl_cons, List.foldl_cons, ih, ih (0 + c.utf8Size)]
      omega
  rw [byteLength, List.foldl_cons, hfoldl, Nat.zero_add, byteLength]

theorem byteLength_append (cs ds : List Char) :
    byteLength (cs ++ ds) = byteLength cs + byteLength ds := by
  induction cs with
  | nil => rw [List.nil_append, byteLength_nil, Nat.zero_add]
  | cons c cs ih => rw [List.cons_append, byteLength_cons, byteLength_cons, ih, Nat.add_assoc]

theorem byteLength_toList (text : String) : byteLength text.toList = text.utf8ByteSize := by
  have hofList : ∀ cs : List Char, byteLength cs = (String.ofList cs).utf8ByteSize := by
    intro cs
    induction cs with
    | nil => rfl
    | cons c cs ih =>
      rw [byteLength_cons, ih, String.ofList_cons, String.utf8ByteSize_append,
        String.utf8ByteSize_singleton]
  rw [hofList, String.ofList_toList]

/-- The line feeds before the end of the first part of a text. -/
theorem newlinesBefore_append (before after : List Char) : ∀ offset : Nat,
    newlinesBefore (offset + byteLength before) offset (before ++ after) = before.count '\n' := by
  induction before with
  | nil => exact fun offset => newlinesBefore_of_le after (Nat.le_refl _)
  | cons c cs ih =>
    intro offset
    have hpos := c.utf8Size_pos
    have hlt : offset < offset + (c.utf8Size + byteLength cs) := by omega
    rw [byteLength_cons, List.cons_append, newlinesBefore, ← Nat.add_assoc, ih, List.count_cons,
      Nat.add_assoc, decide_eq_true hlt, Bool.true_and, Nat.add_comm]

/-- **A place between characters of a text**, or at one of its ends: so many bytes stand before
it. -/
def Border (text : List Char) (n : Nat) : Prop :=
  ∃ before after, text = before ++ after ∧ byteLength before = n

section Border

variable {text : List Char} {n : Nat}

theorem border_byteLength (text : List Char) : Border text (byteLength text) :=
  ⟨text, [], (List.append_nil _).symm, rfl⟩

theorem Border.le (h : Border text n) : n ≤ byteLength text := by
  obtain ⟨before, after, rfl, rfl⟩ := h
  rw [byteLength_append]
  exact Nat.le_add_right _ _

end Border

/-- **A range of a text**: it begins and ends between characters. -/
structure TextRange.Of (text : List Char) (r : TextRange) : Prop where
  start : Border text r.start
  stop : Border text r.stop
  ordered : r.start ≤ r.stop
  stop_le : r.stop ≤ byteLength text

theorem TextRange.Of.of_borders {text : List Char} {a b : Nat} (ha : Border text a)
    (hb : Border text b) (hle : a ≤ b) : TextRange.Of text ⟨a, b⟩ :=
  ⟨ha, hb, hle, hb.le⟩

/-! ## 3. Tokens -/

/-- **The tokens take the bytes of a text from one place to another**: each begins where the one
before it ends, and takes at least one character. -/
inductive Tiles (text : List Char) : Nat → List Lexeme → Nat → Prop
  | nil {a : Nat} : Border text a → Tiles text a [] a
  | cons {x : Lexeme} {xs : List Lexeme} {b : Nat} : x.range.Of text →
      x.range.start < x.range.stop → Tiles text x.range.stop xs b →
      Tiles text x.range.start (x :: xs) b

theorem unfinished_pos (d : Dialect) (cs : List Char) {shorter : Cut} (h : 0 < shorter.2) :
    0 < (d.unfinished cs shorter).2 := by
  unfold Dialect.unfinished
  split
  · rename_i n hn
    exact d.broken_pos hn
  · exact h

theorem escape_pos (d : Dialect) (cs : List Char) : 0 < (escape d cs).2 := by
  have hhex : ∀ {n : Nat} {cut : Cut}, hexEscape n cs = some cut → 0 < cut.2 := by
    intro n cut h
    obtain ⟨value, -, rfl⟩ := Option.map_eq_some_iff.mp h
    exact Nat.succ_pos _
  have hproperty : ∀ {negated : Bool} {cut : Cut}, propertyEscape d negated cs = some cut →
      0 < cut.2 := by
    intro negated cut h
    unfold propertyEscape at h
    split at h
    · simp only at h
      split at h
      · cases h
      · split at h
        · cases h
          exact Nat.succ_pos _
        · obtain ⟨n, hn, rfl⟩ := Option.map_eq_some_iff.mp h
          exact d.broken_pos hn
    · cases h
  have hoctal : ∀ {cut : Cut}, octalEscape cs = some cut → 0 < cut.2 := by
    intro cut h
    obtain ⟨-, h⟩ := Option.ite_none_right_eq_some.mp h
    cases h
    exact Nat.succ_pos _
  have hletter : ∀ {c : Char} {cut : Cut}, letterEscape d c cs = some cut → 0 < cut.2 := by
    intro c cut h
    unfold letterEscape at h
    split at h
    all_goals first
      | exact hhex h
      | exact hproperty h
      | exact hoctal h
      | (cases h; exact Nat.succ_pos _)
  unfold escape
  split
  · exact Nat.succ_pos _
  · simp only
    split
    · cases hl : letterEscape d _ cs with
      | none => exact Nat.succ_pos _
      | some cut => exact hletter hl
    · split <;> exact Nat.succ_pos _

theorem brace_pos (d : Dialect) (cs : List Char) : 0 < (brace d cs).2 := by
  unfold brace counted named
  simp only
  repeat' split
  all_goals first
    | exact Nat.succ_pos _
    | exact unfinished_pos d _ (Nat.succ_pos 0)

theorem parenthesis_pos (d : Dialect) (cs : List Char) : 0 < (parenthesis d cs).2 := by
  unfold parenthesis
  simp only
  repeat' split
  all_goals first
    | exact Nat.succ_pos _
    | exact unfinished_pos d _ (Nat.succ_pos 0)

/-- Every token takes a character. -/
theorem cut_pos (d : Dialect) (st : LexState) (c : Char) (cs : List Char) :
    0 < (st.cut d c cs).2 := by
  have hbody : 0 < (bodyCut d c cs).2 := by
    unfold bodyCut
    split
    · exact escape_pos d _
    · exact brace_pos d _
    · exact parenthesis_pos d _
    all_goals first
      | exact Nat.succ_pos _
      | exact unfinished_pos d _ (Nat.succ_pos 0)
      | (split <;> exact Nat.succ_pos _)
  have hclass : 0 < (classCut d c cs).2 := by
    unfold classCut
    split
    · exact escape_pos d _
    all_goals exact Nat.succ_pos _
  unfold LexState.cut
  simp only
  split
  · exact hclass
  · exact hbody

/-- **The tokens of the rest of a text** take all of its bytes. -/
theorem lexFrom_tiles (d : Dialect) (text : List Char) (st : LexState) (offset : Nat)
    (cs : List Char) : ∀ before, text = before ++ cs → byteLength before = offset →
      Tiles text offset (lexFrom d st offset cs) (byteLength text) := by
  fun_induction lexFrom d st offset cs with
  | case1 st offset =>
    rintro before rfl rfl
    rw [List.append_nil]
    exact .nil (border_byteLength _)
  | case2 st offset c cs t n hcut stop ih =>
    rintro before rfl rfl
    have hpos : 0 < n := by
      have h := cut_pos d st c cs
      rwa [hcut] at h
    -- the token takes the first `n` characters, the first of which is `c`
    obtain ⟨m, rfl⟩ := Nat.exists_eq_succ_of_ne_zero (Nat.ne_of_gt hpos)
    have hsplit : before ++ c :: cs = (before ++ (c :: cs).take (m + 1)) ++ cs.drop m := by
      rw [List.append_assoc, List.take_succ_cons, List.cons_append, List.take_append_drop]
    have hstop : byteLength (before ++ (c :: cs).take (m + 1)) = stop := byteLength_append _ _
    have hlt : byteLength before < stop := by
      have hsize := c.utf8Size_pos
      rw [← hstop, byteLength_append, List.take_succ_cons, byteLength_cons]
      omega
    refine .cons (x := ⟨t, byteLength before, stop⟩) ?_ hlt ?_
    · exact .of_borders ⟨before, _, rfl, rfl⟩ ⟨_, _, hsplit, hstop⟩ hlt.le
    · exact ih _ hsplit hstop

/-! ## 4. Trees in a row -/

/-- **A node has an exact place**, and its parts lie inside it, in order and apart. -/
structure Tree.NodePlaced (text : List Char) (t : Tree) : Prop where
  range : t.range.Of text
  inside : ∀ u ∈ t.parts, t.range.start ≤ u.range.start ∧ u.range.stop ≤ t.range.stop
  apart : t.parts.Pairwise fun u v => u.range.stop ≤ v.range.start

/-- Every part of the tree has an exact place. -/
def Tree.Placed (text : List Char) (t : Tree) : Prop := ∀ u ∈ t.preorder, u.NodePlaced text

theorem Tree.Placed.range {text : List Char} {t : Tree} (h : t.Placed text) : t.range.Of text :=
  (h t (by rw [preorder_eq]; exact List.mem_cons_self)).range

/-- Trees that lie one after the other between two places. -/
inductive Row (text : List Char) : Nat → List Tree → Nat → Prop
  | nil {a b : Nat} : a ≤ b → Row text a [] b
  | cons {a b : Nat} {t : Tree} {ts : List Tree} : a ≤ t.range.start → t.Placed text →
      Row text t.range.stop ts b → Row text a (t :: ts) b

namespace Row

variable {text : List Char} {a a' b b' c : Nat} {t : Tree} {ts us : List Tree}

theorem le (h : Row text a ts b) : a ≤ b := by
  induction h with
  | nil h => exact h
  | cons ha ht _ ih => exact ha.trans (ht.range.ordered.trans ih)

theorem mono (h : Row text a ts b) (ha : a' ≤ a) (hb : b ≤ b') : Row text a' ts b' := by
  induction h generalizing a' with
  | nil h => exact .nil (ha.trans (h.trans hb))
  | cons hstart ht _ ih => exact .cons (ha.trans hstart) ht (ih le_rfl hb)

theorem singleton_iff :
    Row text a [t] b ↔ a ≤ t.range.start ∧ t.Placed text ∧ t.range.stop ≤ b := by
  constructor
  · intro h
    cases h with
    | cons ha ht h => exact ⟨ha, ht, h.le⟩
  · exact fun ⟨ha, ht, hb⟩ => .cons ha ht (.nil hb)

theorem append_iff : Row text a (ts ++ us) c ↔ ∃ b, Row text a ts b ∧ Row text b us c := by
  induction ts generalizing a with
  | nil =>
    refine ⟨fun h => ⟨a, .nil le_rfl, h⟩, ?_⟩
    rintro ⟨b, h, h'⟩
    exact h'.mono h.le le_rfl
  | cons t ts ih =>
    constructor
    · intro h
      cases h with
      | cons ha ht h =>
        obtain ⟨b, hb, hc⟩ := ih.mp h
        exact ⟨b, .cons ha ht hb, hc⟩
    · rintro ⟨b, h, h'⟩
      cases h with
      | cons ha ht h => exact .cons ha ht (ih.mpr ⟨b, h, h'⟩)

theorem append (h : Row text a ts b) (h' : Row text b us c) : Row text a (ts ++ us) c :=
  append_iff.mpr ⟨b, h, h'⟩

theorem snoc (h : Row text a ts b) (ht : t.Placed text) (hb : b ≤ t.range.start) :
    Row text a (ts ++ [t]) t.range.stop :=
  h.append (singleton_iff.mpr ⟨hb, ht, le_rfl⟩)

theorem placed (h : Row text a ts b) : ∀ t ∈ ts, t.Placed text := by
  induction h with
  | nil => simp
  | cons _ ht _ ih => exact List.forall_mem_cons.mpr ⟨ht, ih⟩

theorem inside (h : Row text a ts b) : ∀ t ∈ ts, a ≤ t.range.start ∧ t.range.stop ≤ b := by
  induction h with
  | nil => simp
  | cons ha ht h ih =>
    refine List.forall_mem_cons.mpr ⟨⟨ha, h.le⟩, fun u hu => ⟨?_, (ih u hu).2⟩⟩
    exact ha.trans (ht.range.ordered.trans (ih u hu).1)

theorem apart (h : Row text a ts b) : ts.Pairwise fun t u => t.range.stop ≤ u.range.start := by
  induction h with
  | nil => exact .nil
  | cons _ _ h ih => exact .cons (fun u hu => (h.inside u hu).1) ih

end Row

theorem cover_eq {r s : TextRange} (hr : r.start ≤ r.stop) (h : r.stop ≤ s.start)
    (hs : s.start ≤ s.stop) : r.cover s = ⟨r.start, s.stop⟩ := by
  rw [TextRange.cover, Nat.min_eq_left (hr.trans h), Nat.max_eq_right (h.trans hs)]

section Placed

variable {text : List Char} {a b : Nat} {t u : Tree} {ts : List Tree} {r : TextRange}

/-- A node is placed by the row of its parts. -/
theorem placed_of_row (hr : t.range.Of text) (h : Row text t.range.start t.parts t.range.stop) :
    t.Placed text := by
  intro u hu
  rw [Tree.preorder_eq] at hu
  rcases List.mem_cons.mp hu with rfl | hu
  · exact ⟨hr, h.inside, h.apart⟩
  · obtain ⟨v, hv, hu⟩ := Tree.mem_preorderAll.mp hu
    exact h.placed v hv u hu

theorem placed_leaf (hparts : t.parts = []) (hr : t.range.Of text) : t.Placed text :=
  placed_of_row hr (hparts ▸ .nil hr.ordered)

/-- What covers trees in a row begins with the first of them and ends with the last. -/
theorem Row.coverAll (h : Row text a ts b) (hne : ts ≠ []) : ∃ r, Tree.coverAll ts = r ∧
    r.Of text ∧ a ≤ r.start ∧ r.stop ≤ b ∧ Row text r.start ts r.stop := by
  have hfoldl : ∀ {ts : List Tree} {r : TextRange} {b : Nat}, r.Of text → Row text r.stop ts b →
      ∃ s, ts.foldl (fun r u => r.cover u.range) r = s ∧ s.Of text ∧ r.start = s.start ∧
        s.stop ≤ b ∧ Row text r.stop ts s.stop := by
    intro ts
    induction ts with
    | nil => exact fun hr h => ⟨_, rfl, hr, rfl, h.le, .nil le_rfl⟩
    | cons u ts ih =>
      intro r b hr h
      cases h with
      | cons hu hplaced h =>
        have hcover := cover_eq hr.ordered hu hplaced.range.ordered
        obtain ⟨s, hs, hof, hstart, hstop, hrow⟩ := ih (r := r.cover u.range)
          (hcover ▸ .of_borders hr.start hplaced.range.stop
            (hr.ordered.trans (hu.trans hplaced.range.ordered))) (by rwa [hcover])
        rw [hcover] at hstart hrow
        exact ⟨s, hs, hof, hstart, hstop, .cons hu hplaced hrow⟩
  cases h with
  | nil => exact absurd rfl hne
  | @cons _ _ t ts ha ht h =>
    obtain ⟨s, hs, hof, hstart, hstop, hrow⟩ := hfoldl ht.range h
    exact ⟨s, hs, hof, hstart ▸ ha, hstop, .cons hstart.ge ht hrow⟩

theorem placed_algebra (ht : t.Placed text) (hu : u.Placed text)
    (h : t.range.stop ≤ u.range.start) (op : SetOp) :
    (Tree.algebra (t.range.cover u.range) op t u).Placed text := by
  have hle := ht.range.ordered.trans (h.trans hu.range.ordered)
  rw [cover_eq ht.range.ordered h hu.range.ordered]
  exact placed_of_row (.of_borders ht.range.start hu.range.stop hle)
    (.cons le_rfl ht (.cons h hu (.nil le_rfl)))

theorem placed_groupTree (kind : GroupKind) (hr : r.Of text) (h : Row text r.start [t] r.stop) :
    (kind.tree r t).Placed text := by
  cases kind <;> exact placed_of_row hr h

theorem range_groupTree (kind : GroupKind) (r : TextRange) (t : Tree) :
    (kind.tree r t).range = r := by
  cases kind <;> rfl

end Placed

/-! ## 5. The alternation being read -/

/-- The tree that a term is so far. -/
def Pending.trees : Pending → List Tree
  | .none => []
  | .operand t | .quantified t => [t]
  | .awaiting left _ => [left]

namespace Level

/-- The trees that an alternation consists of so far, from left to right. -/
def trees (l : Level) : List Tree := l.alternatives.reverse ++ l.items.reverse ++ l.pending.trees

/-- What becomes of an alternation when more of the text is read: trees in a row, and mistakes
with a place. -/
structure Gives (text : List Char) (a b : Nat) (result : Level × List Issue) : Prop where
  row : Row text a result.1.trees b
  issues : ∀ i ∈ result.2, i.range.Of text

variable {text : List Char} {a b : Nat} {l : Level}

theorem row_primary (h : Row text a l.trees b) {t : Tree} (ht : t.Placed text)
    (hb : b ≤ t.range.start) : Row text a (l.primary t).trees t.range.stop := by
  cases hpending : l.pending with
  | none | operand u | quantified u =>
    have hrow := h.snoc ht hb
    simpa [primary, trees, hpending, Pending.trees] using hrow
  | awaiting left op =>
    rw [trees, hpending, Pending.trees] at h
    obtain ⟨m, hm, hleft⟩ := Row.append_iff.mp h
    obtain ⟨hstart, hplaced, hstop⟩ := Row.singleton_iff.mp hleft
    have hle := hstop.trans hb
    have hcover : (Tree.algebra (left.range.cover t.range) op left t).range =
        ⟨left.range.start, t.range.stop⟩ :=
      cover_eq hplaced.range.ordered hle ht.range.ordered
    have hrow := hm.snoc (placed_algebra hplaced ht hle op) (by rw [hcover]; exact hstart)
    rw [hcover] at hrow
    simpa only [primary, trees, hpending, Pending.trees] using hrow

theorem gives_primary (h : Row text a l.trees b) {t : Tree} (ht : t.Placed text)
    (hb : b ≤ t.range.start) {issues : List Issue} (hissues : ∀ i ∈ issues, i.range.Of text) :
    Gives text a t.range.stop (l.primary t, issues) :=
  ⟨row_primary h ht hb, hissues⟩

/-- A leaf for a token. -/
theorem gives_leaf (h : Row text a l.trees b) {t : Tree} (hparts : t.parts = [])
    (ht : t.range.Of text) (hb : b ≤ t.range.start) {issues : List Issue}
    (hissues : ∀ i ∈ issues, i.range = t.range) : Gives text a t.range.stop (l.primary t, issues) :=
  gives_primary h (placed_leaf hparts ht) hb fun i hi => hissues i hi ▸ ht

theorem gives_mistake (h : Row text a l.trees b) (fault : Fault) {r : TextRange}
    (hr : r.Of text) (hb : b ≤ r.start) : Gives text a r.stop (l.mistake fault r) :=
  gives_leaf h (t := .placeholder r) rfl hr hb (by simp [Tree.range])

theorem gives_quantify (h : Row text a l.trees b) (min : Nat) (max : Option Nat) {r : TextRange}
    (hr : r.Of text) (hb : b ≤ r.start) : Gives text a r.stop (l.quantify min max r) := by
  have hterm : ∀ {t : Tree}, Row text a (l.alternatives.reverse ++ l.items.reverse ++ [t]) b →
      ∀ max', Row text a (l.alternatives.reverse ++ l.items.reverse ++
        [.repeated (t.range.cover r) t min max']) r.stop := by
    intro t ht max'
    obtain ⟨m, hm, ht⟩ := Row.append_iff.mp ht
    obtain ⟨hstart, hplaced, hstop⟩ := Row.singleton_iff.mp ht
    have hle := hstop.trans hb
    rw [cover_eq hplaced.range.ordered hle hr.ordered]
    refine hm.snoc (t := .repeated ⟨t.range.start, r.stop⟩ t min max') ?_ hstart
    refine placed_of_row (.of_borders hplaced.range.start hr.stop
      (hplaced.range.ordered.trans (hle.trans hr.ordered))) ?_
    exact Row.singleton_iff.mpr ⟨le_rfl, hplaced, hle.trans hr.ordered⟩
  unfold quantify
  cases hpending : l.pending with
  | none | awaiting _ _ => exact gives_mistake h .loneQuantifier hr hb
  | operand t | quantified t =>
    rw [trees, hpending] at h
    cases max with
    | none => exact ⟨hterm h none, by simp⟩
    | some m =>
      by_cases hm : m < min
      · simp only [hm, if_true]
        exact ⟨hterm h _, by simpa using hr⟩
      · simp only [hm, if_false]
        exact ⟨hterm h _, by simp⟩

theorem gives_operator (h : Row text a l.trees b) (op : SetOp) {r : TextRange} (hr : r.Of text)
    (hb : b ≤ r.start) : Gives text a r.stop (l.operator op r) := by
  unfold operator
  cases hpending : l.pending with
  | none | quantified _ | awaiting _ _ => exact gives_mistake h .loneSetOp hr hb
  | operand t =>
    have hrow : Row text a { l with pending := .awaiting t op }.trees b := by
      rwa [trees, hpending] at h
    exact ⟨hrow.mono le_rfl (hb.trans hr.ordered), by simp⟩

section Ends

variable {offset : Nat}

/-- The terms of the last alternative stand in the row in place of what is pending. -/
theorem row_terms (h : Row text a l.trees b) (hb : b ≤ offset) (hoffset : Border text offset) :
    Row text a (l.alternatives.reverse ++ (l.terms offset).1.reverse) offset ∧
      ∀ i ∈ (l.terms offset).2, i.range.Of text := by
  have hhole : TextRange.Of text (.point offset) := .of_borders hoffset hoffset le_rfl
  have hrow := h.mono le_rfl hb
  unfold terms
  cases hpending : l.pending with
  | none | operand t | quantified t =>
    exact ⟨by simpa [trees, hpending, Pending.trees] using hrow, by simp⟩
  | awaiting left op =>
    refine ⟨?_, by simpa using hhole⟩
    have hprimary := row_primary h (t := .placeholder (.point offset)) (placed_leaf rfl hhole) hb
    simpa [primary, trees, hpending, Pending.trees, Tree.range, TextRange.point] using hprimary

theorem row_sequence {ts : List Tree} (h : Row text a ts offset) (hoffset : Border text offset) :
    Row text a [sequence ts offset] offset := by
  match ts with
  | [] =>
    have hpoint : TextRange.Of text (.point offset) := .of_borders hoffset hoffset le_rfl
    exact Row.singleton_iff.mpr ⟨h.le, placed_leaf rfl hpoint, le_rfl⟩
  | [t] => exact h
  | t :: u :: ts =>
    obtain ⟨r, hr, hof, hstart, hstop, hrow⟩ := h.coverAll (by simp)
    subst hr
    exact Row.singleton_iff.mpr ⟨hstart, placed_of_row hof hrow, hstop⟩

theorem row_lastAlternative (h : Row text a l.trees b) (hb : b ≤ offset)
    (hoffset : Border text offset) :
    Row text a (l.alternatives.reverse ++ [(l.lastAlternative offset).1]) offset ∧
      ∀ i ∈ (l.lastAlternative offset).2, i.range.Of text := by
  obtain ⟨hrow, hissues⟩ := row_terms h hb hoffset
  obtain ⟨m, hm, hterms⟩ := Row.append_iff.mp hrow
  exact ⟨hm.append (row_sequence hterms hoffset), hissues⟩

theorem gives_bar (h : Row text a l.trees b) (hb : b ≤ offset) (hoffset : Border text offset) :
    Gives text a offset (l.bar offset) := by
  obtain ⟨hrow, hissues⟩ := row_lastAlternative h hb hoffset
  exact ⟨by simpa [bar, trees, Pending.trees] using hrow, hissues⟩

theorem row_close (h : Row text a l.trees b) (hb : b ≤ offset) (hoffset : Border text offset) :
    Row text a [(l.close offset).1] offset ∧ ∀ i ∈ (l.close offset).2, i.range.Of text := by
  obtain ⟨hrow, hissues⟩ := row_lastAlternative h hb hoffset
  unfold close
  simp only
  split
  · rename_i hnil
    rw [hnil] at hrow
    exact ⟨hrow, hissues⟩
  · rw [← List.reverse_cons] at hrow
    obtain ⟨r, hr, hof, hstart, hstop, hall⟩ := hrow.coverAll (by simp)
    subst hr
    exact ⟨Row.singleton_iff.mpr ⟨hstart, placed_of_row hof hall, hstop⟩, hissues⟩

end Ends

end Level

/-! ## 6. The bracket expression being read -/

/-- A bracket expression that was opened between two places, and a hyphen in it. -/
structure Bracket.Held (text : List Char) (a b : Nat) (k : Bracket) : Prop where
  start : Border text k.start
  start_ge : a ≤ k.start
  start_le : k.start ≤ b
  hyphen : ∀ p ∈ k.open?, p.2.Of text ∧ p.2.stop ≤ b

namespace Bracket

variable {text : List Char} {a b : Nat} {k : Bracket} {x : Lexeme}

theorem Held.mono {b' : Nat} (h : k.Held text a b) (hb : b ≤ b') : k.Held text a b' :=
  ⟨h.start, h.start_ge, h.start_le.trans hb,
    fun p hp => ⟨(h.hyphen p hp).1, (h.hyphen p hp).2.trans hb⟩⟩

theorem start_settle (k : Bracket) : k.settle.start = k.start := by
  unfold settle
  split <;> rfl

/-- Whatever is done to a bracket expression, it stays where it was opened. -/
theorem Held.of_start {k' : Bracket} (h : k.Held text a b) (hstart : k'.start = k.start)
    (hhyphen : ∀ p ∈ k'.open?, p.2.Of text ∧ p.2.stop ≤ b) : k'.Held text a b :=
  ⟨hstart ▸ h.start, hstart ▸ h.start_ge, hstart ▸ h.start_le, hhyphen⟩

theorem Held.item (h : k.Held text a x.range.start) (hclosed : k.open? = none)
    (hx : x.range.Of text) : (k.item x).1.Held text a x.range.stop ∧
      ∀ i ∈ (k.item x).2, i.range.Of text := by
  have hk := h.mono hx.ordered
  unfold Bracket.item
  split
  · exact ⟨hk.of_start rfl (by simp [addChar, add]), by simp⟩
  · exact ⟨hk.of_start rfl (by simp [add]), by simp⟩
  · split
    · exact ⟨hk.of_start rfl (by simpa using hx), by simp⟩
    · exact ⟨hk.of_start rfl (by simp [add]), by simp⟩
  · exact ⟨hk.of_start rfl (by simp [hclosed]), by simpa using hx⟩
  · exact ⟨hk.of_start rfl (by simp [hclosed]), by simpa using hx⟩

theorem Held.settle (h : k.Held text a b) : k.settle.Held text a b ∧ k.settle.open? = none := by
  have hopen : k.settle.open? = none := by
    unfold Bracket.settle
    split
    · rfl
    · assumption
  exact ⟨h.of_start (start_settle k) (by simp [hopen]), hopen⟩

theorem Held.step (h : k.Held text a x.range.start) (hx : x.range.Of text) :
    (k.step x).1.Held text a x.range.stop ∧ ∀ i ∈ (k.step x).2, i.range.Of text := by
  have hk := h.mono hx.ordered
  -- a mistake about a range has the place from its hyphen to its end
  have hcover : ∀ {lo : Nat} {hyphen : TextRange}, k.open? = some (lo, hyphen) →
      (hyphen.cover x.range).Of text := by
    intro lo hyphen hopen
    obtain ⟨hof, hstop⟩ := h.hyphen _ hopen
    rw [cover_eq hof.ordered hstop hx.ordered]
    exact .of_borders hof.start hx.stop (hof.ordered.trans (hstop.trans hx.ordered))
  unfold Bracket.step
  split
  · rename_i hopen _
    split
    · exact ⟨hk.of_start rfl (by simp), by simpa using hcover hopen⟩
    · exact ⟨hk.of_start rfl (by simp [add]), by simp⟩
  · rename_i hopen _
    exact ⟨hk.of_start rfl (by simp), by simpa using hcover hopen⟩
  · obtain ⟨hsettled, hclosed⟩ := h.settle
    exact hsettled.item hclosed hx

/-- The tree of a bracket expression stands where it was opened. -/
theorem Held.close (h : k.Held text a x.range.start) (hx : x.range.Of text) :
    (k.close x.range.stop).1.range = ⟨k.start, x.range.stop⟩ ∧
      (k.close x.range.stop).1.Placed text ∧
      ∀ i ∈ (k.close x.range.stop).2, i.range.Of text := by
  have hof : TextRange.Of text ⟨k.start, x.range.stop⟩ :=
    .of_borders h.start hx.stop (h.start_le.trans hx.ordered)
  simp only [Bracket.close, start_settle]
  refine ⟨rfl, placed_leaf rfl hof, ?_⟩
  split
  · simpa using hof
  · simp

end Bracket

/-! ## 7. The whole expression -/

/-- The open groups, innermost first, each after what was read before it, up to where the innermost
alternation begins. -/
inductive Opened (text : List Char) (a : Nat) : List OpenGroup → Nat → Prop
  | nil : Opened text a [] a
  | cons {g : OpenGroup} {rest : List OpenGroup} {m n c : Nat} : Opened text a rest m →
      Row text m g.outer.trees n → n ≤ g.start → Border text g.start → g.start ≤ c →
      Opened text a (g :: rest) c

/-- **What the reader holds lies in order**: what stands before the last unbalanced parenthesis, the
open groups, the innermost alternation, and the open bracket expression. -/
structure ReadState.Held (text : List Char) (pos : Nat) (st : ReadState) : Prop where
  trees : ∃ a c d, Row text 0 st.before.toList a ∧ Opened text a st.groups c ∧
    Row text c st.level.trees d ∧ d ≤ pos ∧ ∀ k ∈ st.bracket, k.Held text d pos
  issues : ∀ i ∈ st.issues, i.range.Of text

/-- Mistakes are noted after those that were noted before. -/
theorem range_of_noted {text : List Char} {more issues : List Issue}
    (hmore : ∀ i ∈ more, i.range.Of text) (hissues : ∀ i ∈ issues, i.range.Of text) :
    ∀ i ∈ more.reverse ++ issues, i.range.Of text := by
  simp only [List.mem_append, List.mem_reverse]
  rintro i (hi | hi)
  · exact hmore i hi
  · exact hissues i hi

/-- A group that ends is a part of the alternation around it. -/
theorem Opened.close {text : List Char} {a c stop : Nat} {g : OpenGroup} {rest : List OpenGroup}
    {t : Tree} (h : Opened text a (g :: rest) c) (ht : Row text c [t] stop)
    (hstop : Border text stop) :
    TextRange.Of text ⟨g.start, stop⟩ ∧ ∃ m, Opened text a rest m ∧
      Row text m (g.outer.primary (g.kind.tree ⟨g.start, stop⟩ t)).trees stop := by
  cases h with
  | @cons _ _ m n _ hrest houter hn hborder hc =>
    have hof : TextRange.Of text ⟨g.start, stop⟩ :=
      .of_borders hborder hstop (hc.trans ht.le)
    have hplaced := placed_groupTree g.kind hof (ht.mono hc le_rfl)
    have hrow := Level.row_primary houter hplaced (by rwa [range_groupTree])
    rw [range_groupTree] at hrow
    exact ⟨hof, m, hrest, hrow⟩

namespace ReadState

variable {text : List Char} {st : ReadState} {x : Lexeme}

/-- What stands before an unbalanced parenthesis, with one more piece. -/
theorem row_joined {a b : Nat} {before : Option Tree} {t : Tree}
    (hbefore : Row text 0 before.toList a) (ht : Row text a [t] b) :
    Row text 0 [joined before t] b := by
  cases before with
  | none => exact ht.mono hbefore.le le_rfl
  | some u =>
    obtain ⟨r, hr, hof, hstart, hstop, hrow⟩ := (hbefore.append ht).coverAll (by simp)
    subst hr
    exact Row.singleton_iff.mpr ⟨hstart, placed_of_row hof hrow, hstop⟩

/-- The innermost alternation goes on. -/
theorem held_put (st : ReadState) {a c d pos : Nat} {result : Level × List Issue}
    (hbefore : Row text 0 st.before.toList a) (hgroups : Opened text a st.groups c)
    (hresult : Level.Gives text c d result) (hd : d ≤ pos) (hbracket : st.bracket = none)
    (hissues : ∀ i ∈ st.issues, i.range.Of text) : (st.put result).Held text pos where
  trees := ⟨a, c, d, hbefore, hgroups, hresult.row, hd, by simp [put, hbracket]⟩
  issues := range_of_noted hresult.issues hissues

theorem Held.closeGroup (h : st.Held text x.range.start) (hbracket : st.bracket = none)
    (hx : x.range.Of text) : (st.closeGroup x.range).Held text x.range.stop := by
  obtain ⟨⟨a, c, d, hbefore, hgroups, hlevel, hd, -⟩, hissues⟩ := h
  obtain ⟨hclose, hmore⟩ := Level.row_close hlevel hd hx.start
  have hnoted := range_of_noted hmore hissues
  unfold ReadState.closeGroup
  simp only
  split
  · rename_i g rest hg
    rw [hg] at hgroups
    obtain ⟨-, m, hrest, hrow⟩ := hgroups.close (hclose.mono le_rfl hx.ordered) hx.stop
    exact ⟨⟨a, m, _, hbefore, hrest, hrow, le_rfl, by simp [hbracket]⟩, hnoted⟩
  · rename_i hnil
    rw [hnil] at hgroups
    cases hgroups
    refine ⟨⟨_, _, _, row_joined hbefore hclose, ?_, .nil le_rfl, hx.ordered, by simp [hbracket]⟩,
      List.forall_mem_cons.mpr ⟨hx, hnoted⟩⟩
    rw [hnil]
    exact .nil

theorem Held.bodyStep (h : st.Held text x.range.start) (hbracket : st.bracket = none)
    (hx : x.range.Of text) : (st.bodyStep x).Held text x.range.stop := by
  have hclose := h.closeGroup hbracket hx
  obtain ⟨⟨a, c, d, hbefore, hgroups, hlevel, hd, -⟩, hissues⟩ := h
  have hput : ∀ {result : Level × List Issue}, Level.Gives text c x.range.stop result →
      (st.put result).Held text x.range.stop :=
    fun hresult => held_put st hbefore hgroups hresult le_rfl hbracket hissues
  have hleaf : ∀ {t : Tree}, t.parts = [] → t.range = x.range →
      (st.put (st.level.primary t, [])).Held text x.range.stop := by
    intro t hparts hrange
    refine hput ?_
    rw [← hrange]
    exact Level.gives_leaf hlevel hparts (hrange ▸ hx) (hrange ▸ hd) (by simp)
  unfold ReadState.bodyStep
  cases hx' : x.token with
  | char | set | any | eoi | expand => exact hleaf rfl rfl
  | star | plus | quest | times => exact hput (Level.gives_quantify hlevel _ _ hx hd)
  | setOp op => exact hput (Level.gives_operator hlevel op hx hd)
  | or =>
    exact held_put st hbefore hgroups (Level.gives_bar hlevel hd hx.start) hx.ordered hbracket
      hissues
  | openGroup kind =>
    exact ⟨⟨a, _, _, hbefore, .cons hgroups hlevel hd hx.start hx.ordered, .nil le_rfl, le_rfl,
      by simp [hbracket]⟩, hissues⟩
  | closeGroup => exact hclose
  | openClass negated =>
    refine ⟨⟨a, c, d, hbefore, hgroups, hlevel, hd.trans hx.ordered, fun k hk => ?_⟩, hissues⟩
    cases hk
    exact ⟨hx.start, hd, hx.ordered, by simp⟩
  | invalid | closeClass | dash => exact hput (Level.gives_mistake hlevel _ hx hd)

theorem Held.classStep {k : Bracket} (h : st.Held text x.range.start)
    (hbracket : st.bracket = some k) (hx : x.range.Of text) :
    (st.classStep k x).Held text x.range.stop := by
  obtain ⟨⟨a, c, d, hbefore, hgroups, hlevel, hd, hk⟩, hissues⟩ := h
  have hk := hk k hbracket
  unfold ReadState.classStep
  split
  · obtain ⟨hrange, hplaced, hclose⟩ := hk.close hx
    have hrow := Level.row_primary hlevel hplaced (by rw [hrange]; exact hk.start_ge)
    rw [hrange] at hrow
    exact ⟨⟨a, c, _, hbefore, hgroups, hrow, le_rfl, by simp⟩, range_of_noted hclose hissues⟩
  · obtain ⟨hstep, hmore⟩ := hk.step hx
    refine ⟨⟨a, c, d, hbefore, hgroups, hlevel, hd.trans hx.ordered, fun k' hk' => ?_⟩,
      range_of_noted hmore hissues⟩
    cases hk'
    exact hstep

/-- **Each token takes the reader to its end.** -/
theorem Held.step (h : st.Held text x.range.start) (hx : x.range.Of text) :
    (st.step x).Held text x.range.stop := by
  unfold ReadState.step
  split
  · rename_i k hk
    exact h.classStep hk hx
  · rename_i hnone
    exact h.bodyStep hnone hx

theorem Held.foldl {xs : List Lexeme} {a b : Nat} (hxs : Tiles text a xs b) : ∀ {st : ReadState},
    st.Held text a → (xs.foldl ReadState.step st).Held text b := by
  induction hxs with
  | nil _ => exact fun h => h
  | cons hx _ _ ih => exact fun h => ih (h.step hx)

/-- A bracket expression that is not closed is a mistake up to the end of the text. -/
theorem Held.endBracket (h : st.Held text (byteLength text)) :
    (st.endBracket (byteLength text)).Held text (byteLength text) := by
  unfold ReadState.endBracket
  split
  · rename_i k hk
    obtain ⟨⟨a, c, d, hbefore, hgroups, hlevel, hd, hbracket⟩, hissues⟩ := h
    have hk := hbracket k hk
    have hgives := Level.gives_mistake hlevel .unterminatedClass
      (.of_borders hk.start (border_byteLength text) hk.start_le) hk.start_ge
    exact held_put { st with bracket := none } hbefore hgroups hgives le_rfl rfl hissues
  · exact h

/-- Groups that are not closed end with the text. -/
theorem endGroups_placed {a : Nat} : ∀ {groups : List OpenGroup} {c : Nat} {l : Level}
    {issues : List Issue}, Opened text a groups c → Row text c l.trees (byteLength text) →
    (∀ i ∈ issues, i.range.Of text) →
    Row text a [(endGroups (byteLength text) groups l issues).1] (byteLength text) ∧
      ∀ i ∈ (endGroups (byteLength text) groups l issues).2, i.range.Of text
  | [], c, l, issues, hgroups, hlevel, hissues => by
    obtain ⟨hclose, hmore⟩ := Level.row_close hlevel le_rfl (border_byteLength text)
    cases hgroups
    exact ⟨hclose, range_of_noted hmore hissues⟩
  | g :: rest, c, l, issues, hgroups, hlevel, hissues => by
    obtain ⟨hclose, hmore⟩ := Level.row_close hlevel le_rfl (border_byteLength text)
    obtain ⟨hof, m, hrest, hrow⟩ := hgroups.close hclose (border_byteLength text)
    refine @endGroups_placed a rest m _ _ hrest hrow
      (List.forall_mem_cons.mpr ⟨?_, range_of_noted hmore hissues⟩)
    exact hof

theorem Held.finish (h : st.Held text (byteLength text)) :
    (st.finish (byteLength text)).1.Placed text ∧
      ∀ i ∈ (st.finish (byteLength text)).2, i.range.Of text := by
  obtain ⟨⟨a, c, d, hbefore, hgroups, hlevel, hd, -⟩, hissues⟩ := h.endBracket
  obtain ⟨hrow, hmore⟩ := endGroups_placed hgroups (hlevel.mono le_rfl hd) hissues
  exact ⟨(Row.singleton_iff.mp (row_joined hbefore hrow)).2.1,
    fun i hi => hmore i (List.mem_reverse.mp hi)⟩

end ReadState

theorem parseText_placed (d : Dialect) (text : List Char) : (parseText d text).1.Placed text ∧
    ∀ i ∈ (parseText d text).2, i.range.Of text := by
  have hstart : ReadState.Held text 0 {} :=
    ⟨⟨0, 0, 0, .nil le_rfl, .nil, .nil le_rfl, le_rfl, by simp⟩, by simp⟩
  exact (hstart.foldl (lexFrom_tiles d text {} 0 text [] rfl rfl)).finish

/-! ## 8. Findings -/

/-- **A finding tells a mistake at its place**: it is an error that names the fault and the text,
and its anchor has the bytes of the range and the line that they begin on, relative to where the
text begins. -/
structure Issue.Told (text : String) (base : Anchor) (i : Issue) (d : Diagnostic) : Prop where
  severity : d.severity = .error
  kind : d.kind = .regexSyntax
  message : d.message = i.fault.message ++ " in `" ++ text ++ "'"
  anchor : ∃ before after, text.toList = before ++ after ∧ byteLength before = i.range.start ∧
    d.anchors = [⟨base.resource, base.offset + i.range.start, base.offset + i.range.stop,
      base.line + before.count '\n'⟩]

theorem Issue.told {text : String} {i : Issue} (h : i.range.Of text.toList) (base : Anchor) :
    i.Told text base (i.diagnostic text base) := by
  obtain ⟨before, after, htext, hstart⟩ := h.start
  have hmessage : (i.diagnostic text base).message = i.fault.message ++ " in `" ++ text ++ "'" := by
    simp only [Issue.diagnostic, Diagnostic.error, String.append_assoc]
    rfl
  refine ⟨rfl, rfl, hmessage, before, after, htext, hstart, ?_⟩
  have hstop := h.stop_le
  rw [byteLength_toList] at hstop
  have hle := h.ordered.trans hstop
  have hlines := newlinesBefore_append before after 0
  rw [← htext, Nat.zero_add, hstart] at hlines
  simp only [Issue.diagnostic, Diagnostic.error, Anchor.narrow, id_eq, Nat.min_eq_left hle,
    Nat.max_eq_left h.ordered, Nat.min_eq_left hstop, hlines]
  rfl

/-- **Places are exact**, whatever is wrong with the text, in every dialect.  Its tokens take its
bytes one after the other; every part of its tree and every mistake has a range that begins and ends
between characters; the parts of a node lie inside it, in order and apart; and each mistake is told
by one error, whose anchor is that range and the line it begins on, relative to where the text
begins. -/
theorem parse_places (d : Dialect) (text : String) (origin : Option Anchor) :
    Tiles text.toList 0 (lexemes d text.toList) text.utf8ByteSize ∧
    (Regex.parse text origin d).1.root.Placed text.toList ∧
    (∀ i ∈ (parseText d text.toList).2, i.range.Of text.toList) ∧
    List.Forall₂ (Issue.Told text (origin.getD {})) (parseText d text.toList).2
      (Regex.parse text origin d).2 := by
  obtain ⟨htree, hissues⟩ := parseText_placed d text.toList
  refine ⟨?_, htree, hissues, ?_⟩
  · rw [← byteLength_toList]
    exact lexFrom_tiles d text.toList {} 0 text.toList [] rfl rfl
  · change List.Forall₂ _ _ ((parseText d text.toList).2.map (·.diagnostic text (origin.getD {})))
    rw [List.forall₂_map_right_iff, List.forall₂_same]
    exact fun i hi => Issue.told (hissues i hi) _

end Regex

end GrammarTables
