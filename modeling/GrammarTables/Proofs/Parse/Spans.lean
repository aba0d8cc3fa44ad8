import GrammarTables.Lexical.Build
import GrammarTables.Proofs.Parse.Completeness
import GrammarTables.Proofs.Scan.Order
import GrammarTables.Regex.Parser
/-
# Spans of derivation trees

The tokens of a session lie one after the other, so every tree on the stack has its place among
them: it begins where its first token begins, or where the next token begins if it has none, and it
ends before the next token (`Fits`).  Merging the spans of the first and of the last child keeps
this, whatever stands between them (`Placed.fits_merge`), and so does a rule with an empty right
side, provided that the next token was looked at (`Config.Placed.step`).

A default reduction does not look.  `parse_spans` therefore asks that no empty rule is reduced by
default before a token was looked at; without default reductions nothing is asked.
`empty_span_at_start` is a parse in which a default reduction puts an empty branch, and with it the
beginning of its parent, at the beginning of the text.
-/

namespace GrammarTables.Parse

open Scan (Token Scanner Laid startOf stopOf startOf_append)
open Lexical (LexTable)
open Lr (ParseTable)

/-! ## 1. The tokens of a session -/

theorem laid_seek (terminals n : Nat) (sc : Scanner) :
    Laid sc.position (seek terminals n sc).1.toOption.toList (seek terminals n sc).2.position := by
  induction n generalizing sc with
  | zero => exact .nil le_rfl
  | succ n ih =>
    have hnext := sc.laid_next
    unfold seek
    cases hresult : sc.next.result with
    | error e => exact .nil hnext.le
    | ok token? =>
      cases token? with
      | none => exact .nil hnext.le
      | some token =>
        simp only
        split
        · rw [hresult] at hnext
          exact hnext
        · exact (ih _).of_le hnext.le

/-- What a scanner supplies after a token that was sought, it supplies after that token. -/
theorem supplies_of_seek {terminals n : Nat} {sc : Scanner} {token : Token} {tokens : List Token}
    (hseek : (seek terminals n sc).1 = .ok token)
    (h : (seek terminals n sc).2.Supplies terminals tokens) :
    sc.Supplies terminals (token :: tokens) := by
  induction n generalizing sc with
  | zero => cases hseek
  | succ n ih =>
    unfold seek at hseek h
    cases hresult : sc.next.result with
    | error e =>
      rw [hresult] at hseek
      cases hseek
    | ok token? =>
      cases token? with
      | none =>
        rw [hresult] at hseek
        cases hseek
      | some token' =>
        simp only [hresult] at hseek h
        split at hseek
        · rename_i hlt
          rw [if_pos hlt] at h
          obtain rfl := Except.ok.inj hseek
          exact .token hresult hlt h
        · rename_i hge
          rw [if_neg hge] at h
          exact .layout hresult (Nat.not_lt.mp hge) (ih hseek h)

namespace Session

/-- The token kept lies before where the scanner is, and after `p`. -/
def Laid (s : Session) (p : Position) : Prop :=
  Scan.Laid p s.lookahead.toList s.scanner.position

variable {s s' : Session} {p : Position} {token : Token} {tokens : List Token}

theorem Laid.of_alike (h : s.Laid p) (halike : s'.Alike s) : s'.Laid p := by
  rw [Laid, halike.lookahead, halike.scanner]
  exact h

/-- Dropping the token kept. -/
theorem Laid.of_none (h : s.Laid p) (hnone : s'.lookahead = none) (hsc : s'.scanner = s.scanner) :
    s'.Laid p := by
  rw [Laid, hnone, hsc]
  exact .nil h.le

theorem laid_peek_of_none (h : s.lookahead = none) :
    Scan.Laid s.scanner.position s.peek.2.lookahead.toList s.peek.2.scanner.position := by
  obtain ⟨hfst, hscanner, -, hlook⟩ := peek_of_none h
  rw [hlook, hfst, hscanner]
  exact laid_seek ..

theorem Laid.peek (h : s.Laid p) : s.peek.2.Laid p := by
  cases hlook : s.lookahead with
  | none => exact (laid_peek_of_none hlook).of_le h.le
  | some token =>
    rw [peek_of_lookahead hlook]
    exact h

/-- What is to come after looking was to come before. -/
theorem Supplies.of_peek (hpeek : s.peek.1 = .ok token) (h : s.peek.2.Supplies tokens) :
    s.Supplies tokens := by
  cases hlook : s.lookahead with
  | some kept =>
    rw [peek_of_lookahead hlook] at h
    exact h
  | none =>
    obtain ⟨rest, rfl, hrest⟩ := h
    obtain ⟨hfst, hscanner, htable, -⟩ := peek_of_none hlook
    rw [htable, hscanner] at hrest
    refine ⟨token :: rest, ?_, supplies_of_seek (hfst ▸ hpeek) hrest⟩
    rw [lookahead_peek hpeek, hlook]
    rfl

end Session

/-! ## 2. Parts of trees -/

/-- The tokens at the leaves of a list of trees. -/
def leavesAll (trees : List Tree) : List Token := trees.flatMap Tree.leaves

@[simp]
theorem leavesAll_nil : leavesAll [] = [] := rfl

@[simp]
theorem leavesAll_cons (t : Tree) (trees : List Tree) :
    leavesAll (t :: trees) = t.leaves ++ leavesAll trees := rfl

@[simp]
theorem leavesAll_append (trees trees' : List Tree) :
    leavesAll (trees ++ trees') = leavesAll trees ++ leavesAll trees' :=
  List.flatMap_append

/-- **A tree is a part of a list of trees**, with these leaves before it and after it.  The parts of
a tree are the trees of its preorder (`exists_part_iff`). -/
inductive Part (node : Tree) : List Tree → List Token → List Token → Prop
  | here (left right : List Tree) :
      Part node (left ++ node :: right) (leavesAll left) (leavesAll right)
  | inner (left right : List Tree) {rule symbol : Nat} {span : Span} {children : List Tree}
      {before after : List Token} : Part node children before after →
      Part node (left ++ .branch rule symbol span children :: right) (leavesAll left ++ before)
        (after ++ leavesAll right)

namespace Part

variable {node : Tree} {trees trees' : List Tree} {before after : List Token}

theorem leaves (h : Part node trees before after) :
    leavesAll trees = before ++ node.leaves ++ after := by
  induction h with
  | here left right => simp
  | inner left right _ ih =>
    simp only [leavesAll_append, leavesAll_cons, Tree.leaves_branch]
    rw [← leavesAll, ih]
    simp

theorem append_left (h : Part node trees before after) (left : List Tree) :
    Part node (left ++ trees) (leavesAll left ++ before) after := by
  cases h with
  | here left' right =>
    rw [← List.append_assoc, ← leavesAll_append]
    exact .here ..
  | inner left' right h =>
    rw [← List.append_assoc, ← List.append_assoc, ← leavesAll_append]
    exact .inner _ _ h

theorem append_right (h : Part node trees before after) (right : List Tree) :
    Part node (trees ++ right) before (after ++ leavesAll right) := by
  cases h with
  | here left right' =>
    rw [List.append_assoc, List.cons_append, ← leavesAll_append]
    exact .here ..
  | inner left right' h =>
    rw [List.append_assoc, List.cons_append, List.append_assoc, ← leavesAll_append]
    exact .inner _ _ h

theorem mem_preorderAll (h : Part node trees before after) : node ∈ Tree.preorderAll trees := by
  have hroot : node ∈ node.preorder := by
    rw [Tree.preorder.eq_def]
    exact List.mem_cons_self ..
  rw [Tree.preorderAll_eq]
  induction h with
  | here left right => exact List.mem_flatMap.mpr ⟨node, by simp, hroot⟩
  | @inner left right rule symbol span children _ _ _ ih =>
    refine List.mem_flatMap.mpr ⟨.branch rule symbol span children, by simp, ?_⟩
    rw [Tree.preorder, Tree.preorderAll_eq]
    exact List.mem_cons_of_mem _ ih

/-- A part of a list of trees is a part of one of them. -/
theorem exists_tree (h : Part node trees before after) : ∃ left t right before' after',
    trees = left ++ t :: right ∧ before = leavesAll left ++ before' ∧
      after = after' ++ leavesAll right ∧ Part node [t] before' after' := by
  cases h with
  | here left right => exact ⟨left, node, right, [], [], rfl, by simp, by simp, .here [] []⟩
  | @inner left right rule symbol span children before' after' h =>
    refine ⟨left, _, right, before', after', rfl, rfl, rfl, ?_⟩
    simpa using Part.inner [] [] h

/-- A part of one tree is the tree or a part of its children. -/
theorem of_singleton {t : Tree} (h : Part node [t] before after) :
    node = t ∧ before = [] ∧ after = [] ∨ ∃ rule symbol span children,
      t = .branch rule symbol span children ∧ Part node children before after := by
  generalize htrees : [t] = trees at h
  cases h with
  | here left right =>
    obtain ⟨rfl, rfl, rfl⟩ : left = [] ∧ node = t ∧ right = [] := by
      simpa [List.singleton_eq_append_iff] using htrees
    exact Or.inl ⟨rfl, rfl, rfl⟩
  | @inner left right rule symbol span children before' after' h =>
    obtain ⟨rfl, rfl, rfl⟩ : left = [] ∧ .branch rule symbol span children = t ∧ right = [] := by
      simpa [List.singleton_eq_append_iff] using htrees
    refine Or.inr ⟨_, _, _, _, rfl, ?_⟩
    simpa using h

/-- The parts of two lists of trees. -/
theorem of_append (h : Part node (trees ++ trees') before after) :
    (∃ after', Part node trees before after' ∧ after = after' ++ leavesAll trees') ∨
      ∃ before', Part node trees' before' after ∧ before = leavesAll trees ++ before' := by
  obtain ⟨left, t, right, before', after', htrees, rfl, rfl, ht⟩ := h.exists_tree
  rcases List.append_eq_append_iff.mp htrees with ⟨mid, rfl, hmid⟩ | ⟨mid, rfl, hmid⟩
  · refine Or.inr ⟨leavesAll mid ++ before', ?_, by simp⟩
    rw [hmid, ← List.singleton_append]
    exact (ht.append_right right).append_left mid
  · cases mid with
    | nil =>
      obtain rfl : t :: right = trees' := hmid
      refine Or.inr ⟨before', ?_, by simp⟩
      exact ht.append_right right
    | cons t' mid =>
      obtain ⟨rfl, rfl⟩ := List.cons.inj hmid
      refine Or.inl ⟨after' ++ leavesAll mid, ?_, by simp⟩
      exact (ht.append_right mid).append_left left

end Part

mutual

/-- Every tree of the preorder of a tree is a part of it. -/
theorem Part.exists_of_mem {node : Tree} (t : Tree) (h : node ∈ t.preorder) :
    ∃ before after, Part node [t] before after := by
  rw [Tree.preorder.eq_def] at h
  rcases List.mem_cons.mp h with rfl | h
  · exact ⟨_, _, .here [] []⟩
  · match t, h with
    | .branch rule symbol span children, h =>
      obtain ⟨before, after, hpart⟩ := Part.exists_of_mem_all children h
      exact ⟨_, _, .inner [] [] hpart⟩

theorem Part.exists_of_mem_all {node : Tree} (trees : List Tree)
    (h : node ∈ Tree.preorderAll trees) : ∃ before after, Part node trees before after := by
  match trees, h with
  | t :: trees, h =>
    rw [Tree.preorderAll] at h
    rcases List.mem_append.mp h with h | h
    · obtain ⟨before, after, hpart⟩ := Part.exists_of_mem t h
      exact ⟨_, _, hpart.append_right trees⟩
    · obtain ⟨before, after, hpart⟩ := Part.exists_of_mem_all trees h
      exact ⟨_, _, hpart.append_left [t]⟩

end

/-- The parts of a tree are the trees of its preorder. -/
theorem exists_part_iff {node tree : Tree} :
    (∃ before after, Part node [tree] before after) ↔ node ∈ tree.preorder := by
  constructor
  · rintro ⟨before, after, h⟩
    simpa [Tree.preorderAll] using h.mem_preorderAll
  · exact Part.exists_of_mem tree

/-! ## 3. Spans in their place -/

/-- **A span fits** the tokens inside it and the tokens known to follow, which end before `p`.  One
without tokens inside is empty: it begins where the next token begins, and ends there. -/
structure Fits (p : Position) (span : Span) (inside following : List Token) : Prop where
  known : inside ++ following ≠ []
  start : span.start = startOf (inside ++ following) p
  start_le_stop : span.start ≤ span.stop
  le_stop : ∀ token ∈ inside, token.span.stop ≤ span.stop
  stop_le : span.stop ≤ startOf following p

/-- **Trees in their place:** the leaves and the tokens that follow lie one after the other between
two positions, and the spans of all parts fit them. -/
structure Placed (lo : Position) (following : List Token) (p : Position) (trees : List Tree) :
    Prop where
  laid : Laid lo (leavesAll trees ++ following) p
  fits {node : Tree} {before after : List Token} : Part node trees before after →
    Fits p node.span node.leaves (after ++ following)

namespace Placed

variable {lo p q : Position} {following : List Token} {trees children : List Tree}

/-- More tokens become known. -/
theorem extend (h : Placed lo [] p trees) (hlaid : Laid p following q) :
    Placed lo following q trees := by
  have hlo := h.laid
  rw [List.append_nil] at hlo
  refine ⟨hlo.append hlaid, ?_⟩
  intro node before after hpart
  obtain ⟨hknown, hstart, hspan, hle, hstop⟩ := h.fits hpart
  rw [List.append_nil] at hknown hstart hstop
  refine ⟨?_, ?_, hspan, hle, hstop.trans ?_⟩
  · rw [← List.append_assoc]
    exact List.append_ne_nil_of_left_ne_nil hknown _
  · rw [hstart, ← List.append_assoc, startOf_append hknown following q p]
  · cases after with
    | nil => exact hlaid.le_startOf
    | cons token after => exact le_rfl

/-- A token becomes a leaf. -/
theorem shift {token : Token} (h : Placed lo (token :: following) p trees) :
    Placed lo following p (trees ++ [.leaf token]) := by
  have hlaid : Laid lo (leavesAll trees ++ [token] ++ following) p := by simpa using h.laid
  refine ⟨by simpa using hlaid, ?_⟩
  intro node before after hpart
  rcases hpart.of_append with ⟨after', hpart', rfl⟩ | ⟨before', hpart', -⟩
  · simpa using h.fits hpart'
  · rcases hpart'.of_singleton with ⟨rfl, -, rfl⟩ | ⟨rule, symbol, span, children, hleaf, -⟩
    · have hmem : token ∈ leavesAll trees ++ [token] := by simp
      refine ⟨by simp, by simp [startOf, Tree.span], ?_, ?_, ?_⟩
      · exact hlaid.start_le_stop (List.mem_append_left _ hmem)
      · simp [Tree.span]
      · exact hlaid.stop_le_startOf hmem
    · cases hleaf

/-- Trees become the children of a branch whose span fits. -/
theorem branch (h : Placed lo following p (trees ++ children)) {span : Span}
    (hspan : Fits p span (leavesAll children) following) (rule symbol : Nat) :
    Placed lo following p (trees ++ [.branch rule symbol span children]) := by
  have hleaves : (Tree.branch rule symbol span children).leaves = leavesAll children :=
    Tree.leaves_branch ..
  refine ⟨by simpa [hleaves] using h.laid, ?_⟩
  intro node before after hpart
  rcases hpart.of_append with ⟨after', hpart', rfl⟩ | ⟨before', hpart', -⟩
  · simpa [hleaves] using h.fits (hpart'.append_right children)
  · rcases hpart'.of_singleton with ⟨rfl, -, rfl⟩ | ⟨_, _, _, _, hbranch, hinner⟩
    · rw [hleaves]
      exact hspan
    · obtain ⟨-, -, -, rfl⟩ := Tree.branch.inj hbranch
      exact h.fits (hinner.append_left trees)

/-- **The span of the first and of the last child, merged, fits the children.**  The first child
begins where the children begin, and what the last child leaves out lies before it. -/
theorem fits_merge {first last : Tree} (h : Placed lo following p (trees ++ children))
    (hfirst : children.head? = some first) (hlast : children.getLast? = some last) :
    Fits p (first.span.merge last.span) (leavesAll children) following := by
  obtain ⟨rest, hrest⟩ := List.head?_eq_some_iff.mp hfirst
  obtain ⟨front, hfront⟩ := List.getLast?_eq_some_iff.mp hlast
  have hlaid : Laid lo (leavesAll trees ++ (leavesAll children ++ following)) p := by
    simpa using h.laid
  obtain ⟨mid, -, hinside⟩ := hlaid.split
  -- the leaves of the children, seen from the first and from the last of them
  have hsplit : leavesAll children ++ following
      = first.leaves ++ (leavesAll rest ++ following) := by simp [hrest]
  have hsplit' : leavesAll children ++ following
      = leavesAll front ++ (last.leaves ++ following) := by simp [hfront]
  have hfits : Fits p first.span first.leaves (leavesAll rest ++ following) :=
    h.fits (hrest ▸ (Part.here [] rest).append_left trees)
  have hfits' : Fits p last.span last.leaves following :=
    h.fits (hfront ▸ (Part.here front []).append_left trees)
  have hstart : first.span.start ≤ last.span.start := by
    rw [hfits.start, hfits'.start, ← hsplit, hsplit']
    exact (hsplit' ▸ hinside).startOf_le
  have hmerge : (first.span.merge last.span).start = first.span.start := min_eq_left hstart
  refine ⟨?_, ?_, ?_, ?_, ?_⟩
  · rw [hsplit]
    exact hfits.known
  · rw [hmerge, hfits.start, hsplit]
  · rw [hmerge]
    exact hfits.start_le_stop.trans (le_max_left _ _)
  · intro token htoken
    refine le_trans ?_ (le_max_right _ _)
    rw [hfront, leavesAll_append, leavesAll_cons, leavesAll_nil, List.append_nil] at htoken
    rcases List.mem_append.mp htoken with htoken | htoken
    · calc token.span.stop ≤ startOf (last.leaves ++ following) p :=
          (hsplit' ▸ hinside).stop_le_startOf htoken
        _ = last.span.start := hfits'.start.symm
        _ ≤ last.span.stop := hfits'.start_le_stop
    · exact hfits'.le_stop token htoken
  · obtain ⟨_, -, hlater⟩ := (hsplit ▸ hinside).split
    exact max_le (hfits.stop_le.trans hlater.startOf_le) hfits'.stop_le

/-- **The span of a right side fits its trees**, if the next token is known where there are none. -/
theorem fits_spanOf {lookahead : Option Token}
    (h : Placed lo lookahead.toList p (trees ++ children))
    (hknown : children = [] → lookahead.isSome) :
    Fits p (spanOf children lookahead) (leavesAll children) lookahead.toList := by
  cases children with
  | nil =>
    obtain ⟨token, rfl⟩ := Option.isSome_iff_exists.mp (hknown rfl)
    exact ⟨by simp, rfl, le_rfl, by simp, le_rfl⟩
  | cons first rest =>
    have hlast := List.getLast?_eq_some_getLast (List.cons_ne_nil first rest)
    have hfits := h.fits_merge List.head?_cons hlast
    simpa only [spanOf, List.head?_cons, hlast] using hfits

end Placed

/-! ## 4. Steps and runs -/

/-- The trees on a stack, from left to right. -/
def treesOf (frames : List Frame) : List Tree := frames.reverse.map (·.tree)

theorem treesOf_cons (f : Frame) (rest : List Frame) :
    treesOf (f :: rest) = treesOf rest ++ [f.tree] := by
  simp [treesOf]

theorem treesOf_take_drop (frames : List Frame) (n : Nat) :
    treesOf (frames.drop n) ++ treesOf (frames.take n) = treesOf frames := by
  rw [treesOf, treesOf, ← List.map_append, ← List.reverse_append, List.take_append_drop]
  rfl

namespace Config

/-- An empty rule is not reduced by default before a token was looked at. -/
def LooksFirst (c : Config) : Prop :=
  ∀ rule ∈ c.default?, c.arity rule = 0 → c.session.lookahead.isSome

instance (c : Config) : Decidable c.LooksFirst :=
  inferInstanceAs (Decidable (∀ rule ∈ c.default?, c.arity rule = 0 → c.session.lookahead.isSome))

/-- The trees on the stack are in their place among the tokens from `lo` on. -/
def Placed (lo : Position) (c : Config) : Prop :=
  Parse.Placed lo c.session.lookahead.toList c.session.scanner.position (treesOf c.stack)

variable {lo : Position} {c c' : Config} {limit : Nat} {tree : Tree} {s : Session}

/-- Looking at the next token keeps the trees in their place. -/
theorem Placed.peek (h : c.Placed lo) : Placed lo { c with session := c.session.peek.2 } := by
  unfold Placed at h ⊢
  cases hlook : c.session.lookahead with
  | none =>
    rw [hlook] at h
    exact h.extend (Session.laid_peek_of_none hlook)
  | some token =>
    rw [Session.peek_of_lookahead hlook]
    exact h

/-- Sessions with the same tokens to come place the trees alike. -/
theorem Placed.of_alike (h : c.Placed lo) {s : Session} (halike : s.Alike c.session) :
    Placed lo { c with session := s } := by
  unfold Placed
  rw [halike.lookahead, halike.scanner]
  exact h

/-- Reducing puts a branch in the place of its children. -/
theorem Placed.of_reduced {rule : Nat} (h : Placed lo { c with session := c'.session })
    (hstep : c.step = .next c') (hstack : c.Reduced rule c'.stack)
    (hlooks : c.arity rule = 0 → c'.session.lookahead.isSome) : c'.Placed lo := by
  obtain ⟨hlength, span, next, -, hstack⟩ := hstack
  have hspan := span_of_step hstep hstack
  unfold Placed at h ⊢
  simp only at h
  rw [← treesOf_take_drop c.stack (c.arity rule)] at h
  rw [hstack, treesOf_cons, hspan]
  refine h.branch (h.fits_spanOf ?_) rule _
  intro hnil
  refine hlooks ?_
  have hempty : (treesOf (c.stack.take (c.arity rule))).length = 0 := by rw [hnil]; rfl
  simpa [treesOf, Nat.min_eq_left hlength] using hempty

/-- **A step keeps the trees in their place**, if it does not reduce an empty rule unseen. -/
theorem Placed.step (h : c.Placed lo) (hlooks : c.LooksFirst) (hstep : c.step = .next c') :
    c'.Placed lo := by
  cases (effect_of_step hstep).1 with
  | shift token u _ hpeek _ hstack hscanner hlookahead =>
    have hplaced := h.peek
    unfold Placed at hplaced ⊢
    rw [Session.lookahead_peek hpeek] at hplaced
    rw [hstack, treesOf_cons, hlookahead, hscanner]
    exact hplaced.shift
  | reduceByDefault rule hdefault hstack hsession =>
    refine (h.of_alike hsession).of_reduced hstep hstack ?_
    rw [hsession.lookahead]
    exact hlooks rule hdefault
  | reduce rule token _ hpeek _ hstack hsession =>
    have hplaced : Placed lo { c with session := c'.session } := h.peek.of_alike hsession
    refine hplaced.of_reduced hstep hstack fun _ => ?_
    rw [hsession.lookahead, Session.lookahead_peek hpeek]
    rfl

/-- The tokens that come before a step are the one taken and those that come afterwards. -/
theorem supplies_of_step {tokens : List Token} (hstep : c.step = .next c')
    (h : c'.session.Supplies tokens) : c.session.Supplies (c.taken?.toList ++ tokens) := by
  obtain ⟨heffect, -, htable⟩ := effect_of_step hstep
  cases heffect with
  | shift token u hdefault hpeek haction _ hscanner hlookahead =>
    obtain ⟨rest, rfl, hrest⟩ := h
    rw [taken?_of_shift hdefault hpeek haction, hlookahead]
    refine Session.Supplies.of_peek hpeek ⟨rest, ?_, ?_⟩
    · rw [Session.lookahead_peek hpeek]
      rfl
    · rw [Session.table_peek, ← hscanner, ← htable]
      exact hrest
  | reduceByDefault rule hdefault _ hsession =>
    rw [taken?_of_default hdefault]
    exact h.of_alike hsession.symm
  | reduce rule token hdefault hpeek haction _ hsession =>
    rw [taken?_of_reduce hdefault hpeek haction]
    exact .of_peek hpeek (h.of_alike hsession.symm)

/-- **A run that returns a tree** leaves it in its place, before a token that was looked at.  What
was to come are its other leaves and that token. -/
theorem Placed.run (h : c.Placed lo) (hlooks : ∀ c' ∈ c.trace limit, c'.LooksFirst)
    (hrun : c.run limit = (.ok tree, s)) :
    ∃ tokens next p, tree.leaves = leavesOf c.stack ++ tokens ∧
      c.session.Supplies (tokens ++ [next]) ∧ Parse.Placed lo [next] p [tree] := by
  induction limit generalizing c with
  | zero => cases hrun
  | succ n ih =>
    obtain ⟨m, hm, ⟨c', hstep, hrun'⟩ | haccepted⟩ := run_eq_ok hrun
    · obtain rfl := Nat.succ.inj hm
      rw [trace, hstep] at hlooks
      obtain ⟨hc, hrest⟩ := List.forall_mem_cons.mp hlooks
      obtain ⟨tokens, next, p, hleaves, hsupplies, hplaced⟩ := ih (h.step hc hstep) hrest hrun'
      refine ⟨c.taken?.toList ++ tokens, next, p, ?_, ?_, hplaced⟩
      · rw [hleaves, leavesOf_step hstep, List.append_assoc]
      · rw [List.append_assoc]
        exact supplies_of_step hstep hsupplies
    · obtain ⟨token, f, -, hpeek, -, hstack, rfl, -⟩ := accepted_of_step haccepted
      have hlook := Session.lookahead_peek hpeek
      refine ⟨[], token, c.session.peek.2.scanner.position, ?_, ?_, ?_⟩
      · rw [hstack]
        simp [leavesOf]
      · refine .of_peek hpeek ⟨[], ?_, .nil⟩
        rw [hlook]
        rfl
      · have hplaced := h.peek
        unfold Placed at hplaced
        rw [hlook, hstack] at hplaced
        exact hplaced

/-- A run keeps the token kept before where the scanner is. -/
theorem laid_run (h : c.session.Laid lo) (limit : Nat) : (c.run limit).2.Laid lo := by
  induction limit generalizing c with
  | zero => exact h
  | succ n ih =>
    unfold run
    split
    · rename_i c' hstep
      refine ih ?_
      cases (effect_of_step hstep).1 with
      | shift token u _ _ _ _ hscanner hlookahead => exact h.peek.of_none hlookahead hscanner
      | reduceByDefault rule _ _ hsession => exact h.of_alike hsession
      | reduce rule token _ _ _ _ hsession => exact h.peek.of_alike hsession
    · rename_i s hstep
      obtain ⟨token, f, -, hpeek, -, -, -, -, hscanner, hlookahead⟩ := accepted_of_step hstep
      split at hlookahead
      · exact h.peek.of_none hlookahead hscanner
      · have hpeeked := h.peek
        unfold Session.Laid at hpeeked ⊢
        rw [hlookahead, hscanner]
        rwa [Session.lookahead_peek hpeek] at hpeeked
    · rename_i hstep
      rcases (session_of_failed hstep).2 with halike | halike | ⟨hnone, hscanner⟩
      · exact h.of_alike halike
      · exact h.peek.of_alike halike
      · exact h.peek.of_none hnone hscanner

end Config

/-! ## 5. Parses -/

namespace Session

/-- **The sessions of a table on one text:** between any number of parses and calls of the
scanner. -/
inductive Scans (t : ParseTable) (table : LexTable) (text : String) : Session → Prop
  | new : Scans t table text (.new t (.new table text))
  | parse {s : Session} (input limit : Nat) : Scans t table text s →
      Scans t table text (s.parse input limit).2
  | next {s : Session} : Scans t table text s →
      Scans t table text { s with scanner := s.scanner.next.scanner }
  | setState {s : Session} {state : Nat} {scanner : Scanner} {e : Scan.ScanEvent} :
      Scans t table text s → s.scanner.setState state = .ok (scanner, e) →
      Scans t table text { s with scanner }

variable {t : ParseTable} {table : LexTable} {text : String} {s : Session}

theorem Scans.reached (h : s.Scans t table text) : s.Reached t := by
  induction h with
  | new => exact .new _
  | parse input limit _ ih => exact ih.parse input limit
  | next _ ih => exact ih.supply _
  | setState _ _ ih => exact ih.supply _

theorem Scans.laid (h : s.Scans t table text) : s.Laid .start := by
  induction h with
  | new => exact .nil le_rfl
  | @parse s input limit _ ih =>
    cases hstart : s.table.startStates[input]? with
    | none =>
      rw [Session.parse, hstart]
      exact ih
    | some start =>
      rw [parse_eq hstart]
      exact Config.laid_run ih limit
  | @next s _ ih =>
    have hlaid := ih.append (.nil s.scanner.laid_next.le)
    rwa [List.append_nil] at hlaid
  | setState _ hset ih =>
    unfold Scanner.setState at hset
    split at hset
    · obtain ⟨rfl, -⟩ := Prod.mk.inj (Except.ok.inj hset)
      exact ih
    · cases hset

end Session

/-- **Where the span of a part of a tree lies**, between the leaves before it and the next token. -/
structure Tree.Spans (node : Tree) (before : List Token) (next : Token) : Prop where
  /-- It begins with the first leaf. -/
  start : ∀ first, node.leaves.head? = some first → node.span.start = first.span.start
  /-- It ends with the last leaf or later, … -/
  le_stop : ∀ last, node.leaves.getLast? = some last → last.span.stop ≤ node.span.stop
  /-- … but before the next token. -/
  stop_le : node.span.stop ≤ next.span.start
  /-- Without leaves it is empty, after the leaf before it or the beginning of the text. -/
  empty : node.leaves = [] →
    node.span.stop = node.span.start ∧ stopOf .start before ≤ node.span.start

theorem Placed.spans {next : Token} {p : Position} {tree node : Tree} {before after : List Token}
    (h : Placed .start [next] p [tree]) (hpart : Part node [tree] before after) :
    node.Spans before (after.head?.getD next) := by
  obtain ⟨-, hstart, hspan, hle, hstop⟩ := h.fits hpart
  have hnext : startOf (after ++ [next]) p = (after.head?.getD next).span.start := by
    cases after <;> rfl
  refine ⟨?_, ?_, hnext ▸ hstop, ?_⟩
  · intro first hfirst
    obtain ⟨rest, hrest⟩ := List.head?_eq_some_iff.mp hfirst
    rw [hstart, hrest]
    rfl
  · intro last hlast
    exact hle last (List.mem_of_getLast? hlast)
  · intro hnil
    rw [hnil, List.nil_append] at hstart
    refine ⟨le_antisymm (hstart ▸ hstop) hspan, ?_⟩
    have hlaid := h.laid
    rw [hpart.leaves, hnil, List.append_nil, List.append_assoc] at hlaid
    rw [hstart]
    exact hlaid.stopOf_le

/-- **Spans of derivation trees.**  Whatever is parsed on one text, after any number of parses and
calls of the scanner, every part of the tree with leaves begins with its first leaf and ends between
its last leaf and the next token, and every part without leaves is empty, between the leaf before it
and the next token.  Default reductions are asked not to reduce an empty rule before a token was
looked at. -/
theorem parse_spans {g : Grammar} {options : Lr.ParseOptions} {t : ParseTable}
    {ds : List Diagnostic} (hbuild : Lr.build g options = .ok (t, ds)) {table : LexTable}
    {text : String} {s : Session} (hs : s.Scans t table text) {input limit : Nat} {tree : Tree}
    (h : (s.parse input limit).1 = .ok tree)
    (hlooks : options.defaultReductions = true → ∀ c ∈ s.trace input limit, c.LooksFirst) :
    ∃ next, s.Supplies (tree.leaves ++ [next]) ∧ ∀ node before after,
      Part node [tree] before after → node.Spans before (after.head?.getD next) := by
  obtain ⟨rfl, -⟩ := hs.reached.keeps
  have hlooks' : ∀ c ∈ s.trace input limit, c.LooksFirst := by
    cases hdefault : options.defaultReductions with
    | true => exact hlooks hdefault
    | false =>
      intro c hc rule hrule
      rw [Config.default?, Session.table_of_mem_trace hc,
        Lr.defaultReduce_of_build hbuild hdefault] at hrule
      cases hrule
  obtain ⟨start, hstart⟩ := Session.exists_start h
  have hplaced : Config.Placed .start ⟨s, start, []⟩ := by
    refine ⟨hs.laid, ?_⟩
    intro node before after hpart
    obtain ⟨left, t, right, -, -, htrees, -⟩ := hpart.exists_tree
    simp [treesOf] at htrees
  rw [Session.trace_eq hstart] at hlooks'
  obtain ⟨tokens, next, p, hleaves, hsupplies, htree⟩ :=
    hplaced.run hlooks' (Prod.ext ((Session.parse_eq hstart limit) ▸ h) rfl)
  refine ⟨next, ?_, fun node before after hpart => htree.spans hpart⟩
  rw [hleaves]
  exact hsupplies

/-! ## 6. A grammar -/

/-- A grammar of one or two items before an empty tail, with blanks as layout. -/
def tailDraft : Draft :=
  { stamp := 0
    symbols := #[{ index := 0, name := eoiName, kind := .terminal },
      { index := 1, name := "item", kind := .terminal },
      { index := 2, name := "list", kind := .nonterminal },
      { index := 3, name := "tail", kind := .nonterminal },
      { index := 4, name := "space", kind := .layout }]
    states := #[{ name := "initial" }]
    lexicalRules := #[
      { kind := .normal, symbol := 1, regex := (Regex.parse "a" none).1, states := [0] },
      { kind := .normal, symbol := 4, regex := (Regex.parse " " none).1, states := [0] }]
    rules := #[{ left := 2, right := [{ target := 1 }, { target := 3 }] },
      { left := 2, right := [{ target := 1 }, { target := 1 }, { target := 3 }] },
      { left := 3, right := [] }]
    inputs := #[{ target := 2, hasEoi := true }] }

/-- The tables of the grammar, with default reductions. -/
def tailTable : ParseTable :=
  Lr.tableOf tailDraft.freeze (Lr.automatonOf tailDraft.freeze) (Lr.reductionsFor tailDraft.freeze)
    {}

theorem build_tailTable : ∃ ds, Lr.build tailDraft.freeze {} = .ok (tailTable, ds) := by
  unfold Lr.build
  rw [if_neg (by decide +kernel), if_neg (by decide +kernel)]
  exact ⟨_, rfl⟩

/-- A parser at the beginning of a text. -/
def tailSession (text : String) : Session :=
  .new tailTable (.new (Lexical.build tailDraft.freeze {}).1 text)

/-- After one item the parser has to look whether another one follows, so the tail comes after a
token was looked at. -/
theorem parse_spans_tail : ∃ tree next, ((tailSession " a").parse 0 8).1 = .ok tree ∧
    (tailSession " a").Supplies (tree.leaves ++ [next]) ∧ ∀ node before after,
      Part node [tree] before after → node.Spans before (after.head?.getD next) := by
  have hsome : ((tailSession " a").parse 0 8).1.toOption.isSome := by decide +kernel
  cases hparse : ((tailSession " a").parse 0 8).1 with
  | error e =>
    rw [hparse] at hsome
    cases hsome
  | ok tree =>
    obtain ⟨ds, hbuild⟩ := build_tailTable
    have hlooks : ∀ c ∈ (tailSession " a").trace 0 8, c.LooksFirst := by decide +kernel
    obtain ⟨next, hspans⟩ := parse_spans hbuild .new hparse fun _ => hlooks
    exact ⟨tree, next, rfl, hspans⟩

/-- The item at an offset of the first line. -/
def itemAt (n : Nat) : Token := ⟨1, 1, "a", ⟨⟨n, 1, n + 1⟩, ⟨n + 1, 1, n + 2⟩⟩⟩

/-- The span of a list of two items, the items, and the span of the tail. -/
def twoItems? : Tree → Option (Span × Token × Token × Span)
  | .branch _ _ span [.leaf first, .leaf last, .branch _ _ tail []] =>
    some (span, first, last, tail)
  | _ => none

theorem exists_tail {tree : Tree} {span tail : Span} {first last : Token}
    (h : twoItems? tree = some (span, first, last, tail)) :
    tree.leaves = [first, last] ∧ tree.span = span ∧
      ∃ node, Part node [tree] [first, last] [] ∧ node.leaves = [] ∧ node.span = tail := by
  unfold twoItems? at h
  split at h
  · rename_i rule symbol _
    cases h
    refine ⟨by simp, rfl, .branch rule symbol tail [], ?_, by simp, rfl⟩
    simpa using Part.inner [] [] (Part.here [.leaf first, .leaf last] [])
  · cases h

/-- **A default reduction puts an empty branch at the beginning of the text:** after two items the
tail is reduced before a token was looked at.  Neither the tail nor the list, which begins with the
tail and ends with its first item, lies where it should. -/
theorem empty_span_at_start : ∃ tree node, ((tailSession " aa").parse 0 8).1 = .ok tree ∧
    tree.leaves = [itemAt 1, itemAt 2] ∧ tree.span = ⟨.start, (itemAt 1).span.stop⟩ ∧
      Part node [tree] [itemAt 1, itemAt 2] [] ∧ node.leaves = [] ∧ node.span = .point .start ∧
      ∀ next, ¬ tree.Spans [] next ∧ ¬ node.Spans [itemAt 1, itemAt 2] next := by
  have hresult : ((tailSession " aa").parse 0 8).1.toOption.bind twoItems? =
      some (⟨.start, (itemAt 1).span.stop⟩, itemAt 1, itemAt 2, .point .start) := by
    decide +kernel
  cases hparse : ((tailSession " aa").parse 0 8).1 with
  | error e =>
    rw [hparse] at hresult
    cases hresult
  | ok tree =>
    rw [hparse] at hresult
    obtain ⟨hleaves, hspan, node, hpart, hnil, htail⟩ := exists_tail hresult
    refine ⟨tree, node, rfl, hleaves, hspan, hpart, hnil, htail, fun next => ⟨?_, ?_⟩⟩
    · intro h
      have hstart := h.start (itemAt 1) (by rw [hleaves]; rfl)
      rw [hspan] at hstart
      exact absurd hstart (by decide)
    · intro h
      have hstop := (h.empty hnil).2
      rw [htail] at hstop
      exact absurd hstop (by decide)

end GrammarTables.Parse
