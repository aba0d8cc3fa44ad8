import GrammarTables.Proofs.Lexical.Acceptance
import GrammarTables.Proofs.Lexical.Expansion
/-
# Sets as trees and as operands

A tree that denotes a set of characters is read in two ways: on its own it is compiled to a part of
the automaton, and as an operand, or as a lookahead, it is computed as a set.  Both readings apply
flags, fold letters and put in patterns, and they agree: a tree whose set can be computed compiles,
and the fragment accepts the characters of the set and nothing else (`readsSet_of_resolveSet`).

So it does not matter how a set is written: directly, by the name of a pattern, in a group that
changes no flags, or as an alternation of such trees (`Writes`).
-/

namespace GrammarTables.Lexical

open Regex (Tree TextRange FlagChange SetOp)

/-! ## 1. Deeper expansion -/

/-- What `f` gives for names, `g` gives too. -/
def Extends (f g : String → Flags → Except Cause CharSet) : Prop :=
  ∀ name flags s, f name flags = .ok s → g name flags = .ok s

mutual

/-- More patterns that can be expanded do not change a set. -/
theorem setWith_mono {f g : String → Flags → Except Cause CharSet} (hle : Extends f g) :
    ∀ (t : Tree) {flags : Flags} {s : CharSet}, setWith f flags t = .ok s →
      setWith g flags t = .ok s
  | .char .., _, _, h | .set .., _, _, h | .any .., _, _, h => by
    rw [setWith] at h ⊢
    exact h
  | .expand r name, flags, s, h => by
    rw [setWith] at h ⊢
    split at h
    · rename_i u hu
      rw [hle name flags u hu]
      exact h
    · cases h
  | .group r change inner, _, _, h => by
    rw [setWith] at h ⊢
    exact setWith_mono hle inner h
  | .alt r items, _, _, h => by
    rw [setWith] at h ⊢
    exact unionWith_mono hle items h
  | .algebra r op left right, flags, s, h => by
    obtain ⟨s₁, s₂, h₁, h₂, rfl⟩ := setWith_algebra_eq_ok.mp h
    exact setWith_algebra_eq_ok.mpr
      ⟨s₁, s₂, setWith_mono hle left h₁, setWith_mono hle right h₂, rfl⟩
  | .empty .., _, _, h | .eoi .., _, _, h | .seq .., _, _, h | .notFollowedBy .., _, _, h
  | .repeated .., _, _, h | .placeholder .., _, _, h => by
    rw [setWith] at h
    cases h

theorem unionWith_mono {f g : String → Flags → Except Cause CharSet} (hle : Extends f g) :
    ∀ (ts : List Tree) {flags : Flags} {s s' : CharSet}, unionWith f flags s ts = .ok s' →
      unionWith g flags s ts = .ok s'
  | [], _, _, _, h => by
    rw [unionWith] at h ⊢
    exact h
  | t :: ts, flags, s, s', h => by
    rw [unionWith] at h ⊢
    obtain ⟨u, hu, h⟩ := bind_eq_ok.mp h
    rw [setWith_mono hle t hu]
    exact unionWith_mono hle ts h

end

theorem extends_patternSet_succ (table : PatternTable) : ∀ depth : Nat,
    Extends (patternSet table depth) (patternSet table (depth + 1))
  | 0, name, flags, s, h => absurd h (patternSet_zero_ne table name flags s)
  | depth + 1, name, flags, s, h => by
    rw [patternSet_succ] at h ⊢
    obtain ⟨p, hp, h⟩ := bind_eq_ok.mp h
    have hroot := setWith_mono (extends_patternSet_succ table depth) _ (mapError_eq_ok.mp h)
    exact bind_eq_ok.mpr ⟨p, hp, mapError_eq_ok.mpr hroot⟩

theorem extends_patternSet (table : PatternTable) {d d' : Nat} (hle : d ≤ d') :
    Extends (patternSet table d) (patternSet table d') := by
  induction hle with
  | refl => exact fun _ _ _ h => h
  | step _ ih =>
    exact fun name flags s h => extends_patternSet_succ table _ name flags s (ih name flags s h)

/-! ## 2. The expression of a set -/

theorem letters_empty : letters .empty = 0 := by
  ext w
  rw [mem_letters]
  constructor
  · rintro ⟨c, hc, -⟩
    exact absurd hc (CharSet.not_mem_empty c)
  · exact fun hw => hw.elim

theorem letters_union (s t : CharSet) : letters (s.union t) = letters s + letters t := by
  ext w
  rw [Language.mem_add, mem_letters, mem_letters, mem_letters]
  simp only [CharSet.mem_union, or_and_right, exists_or]

section Expressions

variable {set : Flags → Tree → Except ResolveError CharSet}
  {sets : String → Flags → Except Cause CharSet} {exprs : String → Flags → Except Cause Expr}

mutual

/-- **A tree with a set has an expression for the characters of the set.** -/
theorem exists_expr_of_setWith (hset : ∀ flags t s, setWith sets flags t = .ok s →
      set flags t = .ok s)
    (hnames : ∀ name flags s, sets name flags = .ok s →
      ∃ e, exprs name flags = .ok e ∧ e.language = letters s) (limit : Nat) :
    ∀ (t : Tree) {flags : Flags} {s : CharSet}, setWith sets flags t = .ok s →
      ∃ e, exprWith set exprs limit flags t = .ok e ∧ e.language = letters s
  | .char .., _, _, h | .set .., _, _, h | .any .., _, _, h => by
    rw [setWith] at h
    cases h
    exact ⟨_, by rw [exprWith], by rw [Expr.language]⟩
  | .expand r name, flags, s, h => by
    rw [setWith] at h
    split at h
    · rename_i u hu
      cases h
      obtain ⟨e, he, hlang⟩ := hnames name flags s hu
      exact ⟨e, by rw [exprWith, he], hlang⟩
    · cases h
  | .group r change inner, flags, s, h => by
    rw [setWith] at h
    rw [exprWith]
    exact exists_expr_of_setWith hset hnames limit inner h
  | .alt r items, flags, s, h => by
    rw [setWith] at h
    obtain ⟨es, hes, hlang⟩ := exists_exprs_of_unionWith hset hnames limit items h
    refine ⟨.alt es, by rw [exprWith, hes]; rfl, ?_⟩
    rw [Expr.language, ← hlang, letters_empty, zero_add]
  | .algebra r op left right, flags, s, h => by
    refine ⟨.chars s, ?_, by rw [Expr.language]⟩
    rw [exprWith, hset flags _ s h]
    rfl
  | .empty .., _, _, h | .eoi .., _, _, h | .seq .., _, _, h | .notFollowedBy .., _, _, h
  | .repeated .., _, _, h | .placeholder .., _, _, h => by
    rw [setWith] at h
    cases h

theorem exists_exprs_of_unionWith (hset : ∀ flags t s, setWith sets flags t = .ok s →
      set flags t = .ok s)
    (hnames : ∀ name flags s, sets name flags = .ok s →
      ∃ e, exprs name flags = .ok e ∧ e.language = letters s) (limit : Nat) :
    ∀ (ts : List Tree) {flags : Flags} {s s' : CharSet}, unionWith sets flags s ts = .ok s' →
      ∃ es, exprsWith set exprs limit flags ts = .ok es ∧
        letters s + altLanguage es = letters s'
  | [], flags, s, s', h => by
    rw [unionWith] at h
    cases h
    exact ⟨[], by rw [exprsWith], by rw [altLanguage, add_zero]⟩
  | t :: ts, flags, s, s', h => by
    rw [unionWith] at h
    obtain ⟨u, hu, h⟩ := bind_eq_ok.mp h
    obtain ⟨e, he, hlang⟩ := exists_expr_of_setWith hset hnames limit t hu
    obtain ⟨es, hes, hrest⟩ := exists_exprs_of_unionWith hset hnames limit ts h
    refine ⟨e :: es, by rw [exprsWith, he, hes]; rfl, ?_⟩
    rw [altLanguage, hlang, ← add_assoc, ← letters_union, hrest]

end

end Expressions

theorem exists_expr_of_patternSet (table : PatternTable) (limit : Nat) : ∀ {d : Nat},
    d ≤ table.patterns.length → ∀ name flags s, patternSet table d name flags = .ok s →
      ∃ e, patternExpr table limit d name flags = .ok e ∧ e.language = letters s
  | 0, _, name, flags, s, h => absurd h (patternSet_zero_ne table name flags s)
  | d + 1, hd, name, flags, s, h => by
    have hle : d ≤ table.patterns.length := Nat.le_of_succ_le hd
    rw [patternSet_succ] at h
    obtain ⟨p, hp, h⟩ := bind_eq_ok.mp h
    obtain ⟨e, he, hlang⟩ := exists_expr_of_setWith
      (fun flags t s h => setWith_mono (extends_patternSet table hle) t h)
      (exists_expr_of_patternSet table limit hle) limit _ (mapError_eq_ok.mp h)
    refine ⟨e, ?_, hlang⟩
    rw [patternExpr_succ]
    exact bind_eq_ok.mpr ⟨p, hp, mapError_eq_ok.mpr he⟩

/-! ## 3. The fragment of a set -/

/-- The tree compiles, and its fragment accepts the characters of `s` and nothing else, now and
later. -/
def ReadsSet (table : PatternTable) (limit : Nat) (flags : Flags) (t : Tree) (s : CharSet) : Prop :=
  ∀ a : Nfa, a.Bounded → ∃ f b, compileTree table limit flags t a = .ok f b ∧
    ∀ later, b.Grows b.size later → ∀ w : List Nat,
      Path later.silent later.reading f.start w f.stop ↔ ∃ c ∈ s, w = [c]

theorem readsSet_of_resolveSet {table : PatternTable} {flags : Flags} {t : Tree} {s : CharSet}
    (h : resolveSet table flags t = .ok s) (limit : Nat) : ReadsSet table limit flags t s := by
  intro a ha
  have hnames := exists_expr_of_patternSet table limit (Nat.le_refl table.patterns.length)
  obtain ⟨e, he, hlang⟩ : ∃ e, exprWith (resolveSet table)
      (patternExpr table limit table.patterns.length) limit flags t = .ok e ∧
        e.language = letters s :=
    exists_expr_of_setWith (fun flags t s h => h) hnames limit t h
  have hgives : Compile.Gives (compileTree table limit flags t) a.size a (·.build a) (.ok e) :=
    he ▸ gives_compileWith (gives_compilePattern table limit table.patterns.length) limit t flags a
  refine ⟨_, _, hgives, fun later hgrows w => ?_⟩
  rw [path_build_iff ha e hgrows, hlang, mem_letters]

theorem mem_preorder_trans {t u v : Tree} (hu : u ∈ t.preorder) (hv : v ∈ u.preorder) :
    v ∈ t.preorder := by
  rw [Tree.preorder_eq] at hu
  rcases List.mem_cons.mp hu with rfl | hu
  · exact hv
  · obtain ⟨w, hw, hu⟩ := Tree.mem_preorderAll.mp hu
    have := sizeOf_lt_of_mem_parts hw
    exact mem_preorder_of_mem_parts hw (mem_preorder_trans hu hv)
termination_by sizeOf t

/-- Sets of trees that come from texts do not have the mark of the end. -/
theorem not_mem_endMark_of_resolveSet {table : PatternTable} (htable : table.Proper) {flags : Flags}
    {t : Tree} {s : CharSet} (ht : t.Proper) (h : resolveSet table flags t = .ok s) :
    ¬ endMark ∈ s := by
  intro hmem
  have hle := (setMeaning_of_resolveSet htable ht h).isUnicode endMark hmem
  exact absurd hle (by decide)

/-! ## 4. Ways to write a set -/

section Places

variable {pattern : String → Flags → Except Cause CharSet}

mutual

/-- A set does not depend on where its tree came from. -/
theorem setWith_bare : ∀ (t : Tree) {flags : Flags} {s : CharSet},
    setWith pattern flags t.bare = .ok s ↔ setWith pattern flags t = .ok s
  | .expand r name, flags, s => by
    rw [Tree.bare, setWith, setWith]
    cases pattern name flags <;> simp
  | .group r change inner, flags, s => by
    rw [Tree.bare, setWith, setWith]
    exact setWith_bare inner
  | .alt r items, flags, s => by
    rw [Tree.bare, setWith, setWith]
    exact unionWith_bareAll items
  | .algebra r op left right, flags, s => by
    rw [Tree.bare, setWith_algebra_eq_ok, setWith_algebra_eq_ok]
    simp only [setWith_bare left, setWith_bare right]
  | .char .., _, _ | .set .., _, _ | .any .., _, _ => by rw [Tree.bare, setWith, setWith]
  | .empty .., _, _ | .eoi .., _, _ | .seq .., _, _ | .notFollowedBy .., _, _
  | .repeated .., _, _ | .placeholder .., _, _ => by simp [Tree.bare, setWith]

theorem unionWith_bareAll : ∀ (ts : List Tree) {flags : Flags} {s s' : CharSet},
    unionWith pattern flags s (Tree.bareAll ts) = .ok s' ↔ unionWith pattern flags s ts = .ok s'
  | [], _, _, _ => Iff.rfl
  | t :: ts, flags, s, s' => by
    rw [Tree.bareAll, unionWith, unionWith, bind_eq_ok, bind_eq_ok]
    simp only [setWith_bare t, unionWith_bareAll ts]

end

end Places

/-- The tree `u` is a way to write the set of the tree `t`, under some flags. -/
inductive Writes (table : PatternTable) (flags : Flags) (t : Tree) : Tree → Prop
  | direct {u : Tree} : u.bare = t.bare → Writes table flags t u
  | group {r : TextRange} {change : Option FlagChange} {u : Tree} :
      flags.apply change = flags → Writes table flags t u → Writes table flags t (.group r change u)
  | alt {r : TextRange} {us : List Tree} :
      us ≠ [] → (∀ u ∈ us, Writes table flags t u) → Writes table flags t (.alt r us)
  | pattern {r : TextRange} {name : String} {p : NamedPattern} : table.find name = .ok p →
      Writes table flags t p.regex.root → Writes table flags t (.expand r name)

section Forms

variable {table : PatternTable} {flags : Flags}

theorem empty_union (s : CharSet) : CharSet.empty.union s = s :=
  CharSet.ext fun c => by simp [CharSet.mem_union]

/-- An alternation of sets is their union. -/
theorem unionWith_of_forall₂ {pattern : String → Flags → Except Cause CharSet} {us : List Tree}
    {sets : List CharSet} (h : List.Forall₂ (fun u s => setWith pattern flags u = .ok s) us sets) :
    ∀ s, unionWith pattern flags s us = .ok (sets.foldl CharSet.union s) := by
  induction h with
  | nil => exact fun s => by rw [unionWith, List.foldl_nil]
  | cons hu _ ih =>
    intro s
    rw [unionWith, hu]
    exact ih _

/-- A union of a set with itself. -/
theorem unionWith_of_forall {pattern : String → Flags → Except Cause CharSet} {s : CharSet} :
    ∀ {us : List Tree}, (∀ u ∈ us, setWith pattern flags u = .ok s) →
      unionWith pattern flags s us = .ok s
  | [], _ => by rw [unionWith]
  | u :: us, h => by
    obtain ⟨hu, hrest⟩ := List.forall_mem_cons.mp h
    have hself : s.union s = s := CharSet.ext fun c => by rw [CharSet.mem_union, or_self]
    rw [unionWith, hu]
    change unionWith pattern flags (s.union s) us = .ok s
    rw [hself]
    exact unionWith_of_forall hrest

/-- An alternation of trees that all have the same value, be it a set or a failure. -/
theorem unionWith_eq_ok_iff {pattern : String → Flags → Except Cause CharSet} {s : CharSet}
    {value : Except ResolveError CharSet} {us : List Tree} (hne : us ≠ [])
    (h : ∀ u ∈ us, ∀ s, setWith pattern flags u = .ok s ↔ value = .ok s) :
    unionWith pattern flags .empty us = .ok s ↔ value = .ok s := by
  have hok : ∀ s, value = .ok s → unionWith pattern flags .empty us = .ok s := by
    intro s hs
    obtain ⟨u, us, rfl⟩ := List.exists_cons_of_ne_nil hne
    have hall : ∀ v ∈ u :: us, setWith pattern flags v = .ok s := fun v hv => (h v hv s).mpr hs
    rw [unionWith, hall u List.mem_cons_self]
    change unionWith pattern flags (CharSet.empty.union s) us = .ok s
    rw [empty_union]
    exact unionWith_of_forall (List.forall_mem_cons.mp hall).2
  refine ⟨fun hunion => ?_, hok s⟩
  obtain ⟨u, hu⟩ := List.exists_mem_of_ne_nil us hne
  obtain ⟨s', hs'⟩ := exists_of_unionWith hunion u hu
  have hvalue := (h u hu s').mp hs'
  cases hunion.symm.trans (hok s' hvalue)
  exact hvalue

/-- The set of a reference is that of the pattern. -/
theorem resolveSet_expand (hdepth : ∀ name, table.Depth table.patterns.length name)
    {r : TextRange} {name : String} {p : NamedPattern} (hp : table.find name = .ok p)
    {s : CharSet} : resolveSet table flags (.expand r name) = .ok s ↔
      resolveSet table flags p.regex.root = .ok s := by
  have hvalue : resolveSet table = setWith (table.setOf (resolveSet table)) :=
    ((expands_set table).solution_iff hdepth).mpr rfl
  have hname : table.setOf (resolveSet table) name flags
      = (resolveSet table flags p.regex.root).mapError (·.cause) := by
    rw [PatternTable.setOf, hp]
    rfl
  rw [hvalue, setWith, ← hvalue, hname]
  cases resolveSet table flags p.regex.root <;> simp [Except.mapError]

/-- **However a set is written, it is the same set.** -/
theorem Writes.resolveSet_iff (hdepth : ∀ name, table.Depth table.patterns.length name)
    {t u : Tree} (h : Writes table flags t u) :
    ∀ s, resolveSet table flags u = .ok s ↔ resolveSet table flags t = .ok s := by
  induction h with
  | direct hbare =>
    intro s
    rw [resolveSet, ← setWith_bare, hbare, setWith_bare]
    rfl
  | group hflags _ ih =>
    intro s
    rw [← ih s, resolveSet, setWith, hflags]
    rfl
  | alt hne _ ih =>
    intro s
    rw [resolveSet, setWith]
    exact unionWith_eq_ok_iff hne ih
  | pattern hp _ ih => exact fun s => (resolveSet_expand hdepth hp).trans (ih s)

/-- The set of a lookahead. -/
theorem ruleParts_lookahead {re : Regex} {body : List Tree} {r : TextRange} {u : Tree} {s : CharSet}
    (hsplit : splitLookahead re.root = .ok (body, some (r, u)))
    (hu : resolveSet table {} u = .ok s) : ruleParts table re = .ok (body, some s) := by
  simp only [ruleParts, hsplit, bind, Except.bind, hu]
  rfl

theorem lookahead_of_compileRule {re : Regex} {body : List Tree} {r : TextRange} {u : Tree}
    {s : CharSet} (hsplit : splitLookahead re.root = .ok (body, some (r, u)))
    (hu : resolveSet table {} u = .ok s) {limit : Nat} {a b : Nfa} {c : CompiledRule}
    (h : compileRule table limit re a = .ok c b) : c.lookahead = some s := by
  obtain ⟨e, he, hbuild⟩ := compileRule_eq_ok h
  rw [resolveRule_eq, ruleParts_lookahead hsplit hu] at he
  obtain ⟨es, -, hes⟩ := bind_eq_ok.mp (show (resolveAll table limit {} body >>= fun es =>
    .ok ⟨es, some s⟩) = .ok e from by rw [← he]; rfl)
  cases hes
  cases hbuild
  rfl

end Forms

/-! ## 5. The two readings of a set -/

/-- **A tree whose set can be computed compiles, and its fragment accepts the characters of the
set.**  If the tree and the patterns come from texts, the mark of the end is not among them.
Alternations of sets are unions.  When patterns that refer to themselves cannot be used, every other
way to write the set means the same, as a part of a text, as an operand, and as a lookahead. -/
theorem resolveSet_agrees {table : PatternTable} {flags : Flags} {t : Tree} {s : CharSet}
    (h : resolveSet table flags t = .ok s) :
    (∀ limit, ReadsSet table limit flags t s) ∧
    ((∀ p ∈ table.patterns, p.regex.FromText) →
      ∀ re : Regex, re.FromText → t ∈ re.root.preorder → ¬ endMark ∈ s) ∧
    (∀ r us sets, List.Forall₂ (fun u s' => resolveSet table flags u = .ok s') us sets →
      resolveSet table flags (.alt r (t :: us)) = .ok (sets.foldl CharSet.union s)) ∧
    ((table.patterns.map (·.name)).Nodup → table.BarsCycles → ∀ u, Writes table flags t u →
      resolveSet table flags u = .ok s ∧ (∀ limit, ReadsSet table limit flags u s) ∧
      (∀ r op v s', resolveSet table flags v = .ok s' →
        resolveSet table flags (.algebra r op u v) = .ok (combine op s s') ∧
        resolveSet table flags (.algebra r op v u) = .ok (combine op s' s)) ∧
      (flags = {} → ∀ re body r, splitLookahead re.root = .ok (body, some (r, u)) →
        ruleParts table re = .ok (body, some s) ∧
        ∀ limit a b c, compileRule table limit re a = .ok c b → c.lookahead = some s)) := by
  refine ⟨readsSet_of_resolveSet h, fun hpatterns re hre ht => ?_, fun r us sets hus => ?_,
    fun hnames hbars u hwrites => ?_⟩
  · have htable : table.Proper := fun hfind =>
      (hpatterns _ (List.mem_of_find?_eq_some (PatternTable.find_eq_ok.mp hfind).2)).proper
    exact not_mem_endMark_of_resolveSet htable
      (fun v hv => hre.proper v (mem_preorder_trans ht hv)) h
  · have hunion := unionWith_of_forall₂ (hus.cons h) .empty
    rwa [List.foldl_cons, empty_union] at hunion
  · have hu := (hwrites.resolveSet_iff (depth_of_barsCycles hnames hbars) s).mpr h
    refine ⟨hu, readsSet_of_resolveSet hu, fun r op v s' hv => ⟨?_, ?_⟩, ?_⟩
    · exact setWith_algebra_eq_ok.mpr ⟨s, s', hu, hv, rfl⟩
    · exact setWith_algebra_eq_ok.mpr ⟨s', s, hv, hu, rfl⟩
    · rintro rfl re body r hsplit
      exact ⟨ruleParts_lookahead hsplit hu, fun limit a b c => lookahead_of_compileRule hsplit hu⟩

/-- A letter of the pattern that is not `a`. -/
def otherLetter : Regex := (Regex.parse "{letter}{-}[a]" none).1

/-- Such a letter, written in a group and once more, must not follow. -/
def guardedByLetter : Regex := (Regex.parse "x(?!({letter}{-}[a])|{letter}{-}[a])" none).1

/-- The tree of `otherLetter`, at some place. -/
def otherLetterAt (o : Nat) : Tree :=
  .algebra ⟨o, o + 14⟩ .difference (.expand ⟨o, o + 8⟩ "letter")
    (.set ⟨o + 11, o + 14⟩ { members := .single 0x61 })

/-- The letter is `b`, in a text and as a lookahead. -/
theorem resolveSet_agrees_otherLetter : ∃ s, resolveSet letterTable {} otherLetter.root = .ok s ∧
    (∀ c, c ∈ s ↔ c = 0x62) ∧ ¬ endMark ∈ s ∧ ReadsSet letterTable 1000 {} otherLetter.root s ∧
    ∃ body, ruleParts letterTable guardedByLetter = .ok (body, some s) := by
  have hroot : otherLetter.root = otherLetterAt 0 := by cbv
  have hguarded : guardedByLetter.root = .seq ⟨0, 36⟩ [.char ⟨0, 1⟩ 0x78, .notFollowedBy ⟨1, 36⟩
      (.alt ⟨4, 35⟩ [.group ⟨4, 20⟩ none (otherLetterAt 5), otherLetterAt 21])] := by cbv
  have hnames : (letterTable.patterns.map (·.name)).Nodup := by decide
  have hbars : letterTable.BarsCycles := by
    have hnone : cyclicPatterns letterTable.patterns = [] := by decide +kernel
    intro i hi
    rw [hnone] at hi
    cases hi
  have hset : resolveSet letterTable {} otherLetter.root
      = .ok (combine .difference (.range 0x61 0x62) (.single 0x61)) := by
    rw [hroot]
    refine setWith_algebra_eq_ok.mpr ⟨.range 0x61 0x62, .single 0x61, ?_, rfl, rfl⟩
    refine (resolveSet_expand (depth_of_barsCycles hnames hbars) (p := letterPattern) rfl).mpr ?_
    rw [root_letterPattern]
    rfl
  obtain ⟨hreads, hend, -, hforms⟩ := resolveSet_agrees hset
  refine ⟨_, hset, fun c => ?_, ?_, hreads 1000, ?_⟩
  · have hmax : endMark = 0x110000 := rfl
    simp only [combine, CharSet.mem_diff, CharSet.mem_range, CharSet.mem_single]
    omega
  · refine hend (List.forall_mem_singleton.mpr (.parse "[ab]" none)) otherLetter (.parse _ none) ?_
    rw [Tree.preorder_eq]
    exact List.mem_cons_self
  · have hwrites : Writes letterTable {} otherLetter.root
        (.alt ⟨4, 35⟩ [.group ⟨4, 20⟩ none (otherLetterAt 5), otherLetterAt 21]) := by
      rw [hroot]
      refine .alt (by simp) (List.forall_mem_cons.mpr ⟨.group rfl (.direct rfl), ?_⟩)
      exact List.forall_mem_singleton.mpr (.direct rfl)
    obtain ⟨-, -, -, hahead⟩ := hforms hnames hbars _ hwrites
    exact ⟨_, (hahead rfl guardedByLetter _ _ (by rw [hguarded]; rfl)).1⟩

end GrammarTables.Lexical
