import GrammarTables.Proofs.Lexical.Embedding
import GrammarTables.Proofs.Lexical.InPlace
/-
# What a rule that fails leaves behind

The rules of a grammar can be compiled one after the other into one automaton (`addRules`).  A
rule that fails is dropped, but the states and sets that were added before it failed stay.  The
rules after it then have other numbers and the alphabet is finer.

The tables are the same as those that are built when nothing is added for such a rule
(`sharedTables_eq`).  So a rule that fails leaves the tables of a rule with mistakes, which is not
even looked at.
-/

namespace GrammarTables.Lexical

/-! ## 1. Automata that grow -/

section Growth

variable {a b c : Nfa} {f : Nat → Nat} {lo : Nat}

theorem Nfa.Bounded.grows (ha : a.Bounded) (h : a.Grows lo b) : b.Bounded where
  silent hm := by
    rcases h.silent_new hm with hm | ⟨⟨-, hs⟩, ht⟩
    · obtain ⟨hs, ht⟩ := ha.silent hm
      exact ⟨Nat.lt_of_lt_of_le hs h.size_le, Nat.lt_of_lt_of_le ht h.size_le⟩
    · exact ⟨hs, ht⟩
  reading hm := by
    rcases h.reading_new hm with hm | ⟨⟨-, hs⟩, ht⟩
    · obtain ⟨hs, ht⟩ := ha.reading hm
      exact ⟨Nat.lt_of_lt_of_le hs h.size_le, Nat.lt_of_lt_of_le ht h.size_le⟩
    · exact ⟨hs, ht⟩

/-- The numbers of `f` below `n`, and those from `m` on for the others. -/
def splice (f : Nat → Nat) (n m s : Nat) : Nat := if s < n then f s else m + (s - n)

theorem splice_of_lt {n m s : Nat} (h : s < n) : splice f n m s = f s := if_pos h

theorem splice_of_not_lt {n m s : Nat} (h : ¬ s < n) : splice f n m s = m + (s - n) := if_neg h

/-- Moves of one kind in an automaton (`A`), in a larger one (`B`), and after that has grown to
`m` states (`C`). -/
theorem splice_moves {A B C : Nat → Nat → Prop} {n k m s t' : Nat} (hlt : ∀ {s}, s < n → f s < k)
    (hA : ∀ {s t}, A s t → s < n ∧ t < n) (hB : ∀ {s t'}, B (f s) t' ↔ ∃ t, A s t ∧ t' = f t)
    (hold : ∀ {s t}, s < k → (C s t ↔ B s t)) (hC : ∀ {s t}, C s t → s < m) :
    C (splice f n m s) t' ↔ ∃ t, A s t ∧ t' = splice f n m t := by
  by_cases hs : s < n
  · rw [splice_of_lt hs, hold (hlt hs), hB]
    refine exists_congr fun t => and_congr_right fun hm => ?_
    rw [splice_of_lt (hA hm).2]
  · rw [splice_of_not_lt hs]
    constructor
    · intro hm
      have := hC hm
      omega
    · rintro ⟨t, hm, -⟩
      exact absurd (hA hm).1 hs

/-- **The larger automaton may grow alone.**  States that are added to both afterwards are numbered
behind what was added to the larger one. -/
theorem Nfa.Embeds.grows (h : a.Embeds f b) (ha : a.Bounded) (hb : b.Bounded)
    (hgrows : b.Grows b.size c) : a.Embeds (splice f a.size c.size) c where
  mono s t hst := by
    have hle := hgrows.size_le
    by_cases ht : t < a.size
    · rw [splice_of_lt ht, splice_of_lt (hst.trans ht)]
      exact h.mono hst
    · rw [splice_of_not_lt ht]
      by_cases hs : s < a.size
      · have := h.lt_iff.mpr hs
        rw [splice_of_lt hs]
        omega
      · rw [splice_of_not_lt hs]
        omega
  fresh k := by
    rw [splice_of_not_lt (by omega)]
    omega
  silent {s t'} := splice_moves (A := fun s t => (s, t) ∈ a.silent)
    (B := fun s t => (s, t) ∈ b.silent) (C := fun s t => (s, t) ∈ c.silent)
    h.lt_iff.mpr ha.silent h.silent
    (fun hs => ⟨fun hm => (hgrows.silent_new hm).resolve_right fun hin => Nat.not_lt.mpr hin.1.1 hs,
      fun hm => hgrows.silent hm⟩) fun hm => ((hb.grows hgrows).silent hm).1
  reading {s t' set} := splice_moves (A := fun s t => (s, set, t) ∈ a.reading)
    (B := fun s t => (s, set, t) ∈ b.reading) (C := fun s t => (s, set, t) ∈ c.reading)
    h.lt_iff.mpr ha.reading h.reading
    (fun hs => ⟨fun hm => (hgrows.reading_new hm).resolve_right fun hin => Nat.not_lt.mpr hin.1.1 hs,
      fun hm => hgrows.reading hm⟩) fun hm => ((hb.grows hgrows).reading hm).1

end Growth

/-! ## 2. One automaton for all rules -/

/-- Whether a rule is one for the automaton: not with mistakes, and neither soft nor a word of a
class rule. -/
def isCompiled (r : LexicalRule) : Bool :=
  r.regex.isValid && r.classRule.isNone && r.kind ≠ .soft

/-- The meaning of a rule that is one for the automaton. -/
def meaning? (table : PatternTable) (limit : Nat) (r : LexicalRule) : Option RuleExpr :=
  if isCompiled r then (resolveRule table limit r.regex).toOption else none

/-- Compiles a rule into an automaton.  If that fails, what was added stays. -/
def addRule (table : PatternTable) (limit : Nat) (r : LexicalRule) (a : Nfa) :
    Option CompiledRule × Nfa :=
  if isCompiled r then
    match compileRule table limit r.regex a with
    | .ok c b => (some c, b)
    | .error _ b => (none, b)
  else (none, a)

/-- Compiles rules one after the other. -/
def addRules (table : PatternTable) (limit : Nat) :
    List LexicalRule → Nfa → List (Option CompiledRule) × Nfa
  | [], a => ([], a)
  | r :: rest, a =>
    let (c, a) := addRule table limit r a
    let (cs, a) := addRules table limit rest a
    (c :: cs, a)

section Rules

variable {table : PatternTable} {limit : Nat}

theorem grows_ruleBuild (e : RuleExpr) (a : Nfa) : a.Grows a.size (e.build a).2 :=
  grows_build (.seq e.body) a

/-- What becomes of a rule: what is built for its meaning, or nothing but growth. -/
theorem addRule_cases (table : PatternTable) (limit : Nat) (r : LexicalRule) (a : Nfa) :
    (∃ e, meaning? table limit r = some e ∧
      addRule table limit r a = (some (e.build a).1, (e.build a).2)) ∨
    (meaning? table limit r = none ∧
      ∃ b, addRule table limit r a = (none, b) ∧ a.Grows a.size b) := by
  have hgives := gives_compileRule table limit r.regex a
  unfold meaning? addRule
  by_cases hcompiled : isCompiled r = true
  · rw [if_pos hcompiled, if_pos hcompiled]
    cases hresolve : resolveRule table limit r.regex with
    | ok e =>
      rw [hresolve] at hgives
      have hcompile : compileRule table limit r.regex a = .ok (e.build a).1 (e.build a).2 := hgives
      exact Or.inl ⟨e, rfl, by rw [hcompile]⟩
    | error x =>
      rw [hresolve] at hgives
      obtain ⟨b, hcompile, hgrows⟩ := hgives
      exact Or.inr ⟨rfl, b, by rw [hcompile], hgrows⟩
  · rw [if_neg hcompiled, if_neg hcompiled]
    exact Or.inr ⟨rfl, a, rfl, .refl a _⟩

/-- Compiled rules in an automaton, and the same rules in a larger one. -/
structure SameRules (f : Nat → Nat) (x y : List (Option CompiledRule) × Nfa) : Prop where
  embeds : x.2.Embeds f y.2
  bounded : x.2.Bounded
  bounded' : y.2.Bounded
  rules : y.1 = renumberRules f x.1
  inside : ∀ c, some c ∈ x.1 → c.fragment.start < x.2.size

/-- **Rules that fail only make the automaton larger.** -/
theorem addRules_sameRules : ∀ (rs : List LexicalRule) {f : Nat → Nat} {a b : Nfa}, a.Embeds f b →
    a.Bounded → b.Bounded → ∃ f', (∀ s < a.size, f' s = f s) ∧
      a.size ≤ (buildRules (rs.map (meaning? table limit)) a).2.size ∧
      SameRules f' (buildRules (rs.map (meaning? table limit)) a) (addRules table limit rs b)
  | [], f, a, b, h, ha, hb =>
    ⟨f, fun _ _ => rfl, Nat.le_refl _, h, ha, hb, rfl, by simp [buildRules]⟩
  | r :: rs, f, a, b, h, ha, hb => by
    rcases addRule_cases table limit r b with ⟨e, hmeaning, hadd⟩ | ⟨hmeaning, c, hadd, hgrows⟩
    · obtain ⟨hfragment, hembeds⟩ := embeds_ruleBuild e h
      have hgrows := grows_ruleBuild e a
      obtain ⟨f', hf', hle, hsame⟩ := addRules_sameRules rs hembeds (ha.grows hgrows)
        (hb.grows (grows_ruleBuild e b))
      refine ⟨f', fun s hs => hf' s (Nat.lt_of_lt_of_le hs hgrows.size_le), ?_⟩
      obtain ⟨hstart, hstop, -⟩ := builds_build (.seq e.body) a
      -- the fragment lies below the size, where the rules that follow leave the numbers as they are
      have hrule : (e.build a).1.renumber f = (e.build a).1.renumber f' := by
        have h₁ := hf' (e.build a).1.fragment.start hstart.2
        have h₂ := hf' (e.build a).1.fragment.stop hstop.2
        rw [CompiledRule.renumber, CompiledRule.renumber, Fragment.renumber, Fragment.renumber, h₁,
          h₂]
      simp only [List.map_cons, hmeaning, buildRules, addRules, hadd]
      refine ⟨hgrows.size_le.trans hle, hsame.embeds, hsame.bounded, hsame.bounded', ?_, ?_⟩
      · rw [hsame.rules, hfragment, hrule]
        rfl
      · intro c hc
        rcases List.mem_cons.mp hc with heq | hc
        · cases heq
          exact Nat.lt_of_lt_of_le hstart.2 hle
        · exact hsame.inside c hc
    · -- nothing is built for the rule in `a`, and `b` has grown alone
      obtain ⟨f', hf', hle, hsame⟩ := addRules_sameRules rs (h.grows ha hb hgrows) ha
        (hb.grows hgrows)
      refine ⟨f', fun s hs => (hf' s hs).trans (splice_of_lt hs), ?_⟩
      simp only [List.map_cons, hmeaning, buildRules, addRules, hadd]
      refine ⟨hle, hsame.embeds, hsame.bounded, hsame.bounded', ?_, ?_⟩
      · rw [hsame.rules]
        rfl
      · intro c hc
        exact hsame.inside c (by simpa using hc)

end Rules

/-! ## 3. Tables of the shared automaton -/

/-- What becomes of a rule, without what there is to say about it. -/
def roleFor (table : PatternTable) (limit : Nat) (r : LexicalRule) : Role :=
  match r.classRule, r.regex.constant? with
  | none, _ => (meaning? table limit r).elim .dropped .matched
  | some _, some text => .word text
  | some _, none => .dropped

theorem roleOf_fst (g : Grammar) (table : PatternTable) (limit : Nat) (r : LexicalRule) :
    (roleOf g table limit r).1 = roleFor table limit r := by
  unfold roleOf roleFor meaning? isCompiled Regex.constant?
  cases r.regex.isValid with
  | false => cases r.classRule <;> rfl
  | true =>
    cases r.classRule with
    | some c =>
      simp only [Option.isNone_some, Bool.and_false]
      cases r.regex.root.constant? <;> rfl
    | none =>
      by_cases hkind : r.kind = .soft
      · simp [hkind]
      · cases resolveRule table limit r.regex <;> simp [hkind, Except.toOption]

theorem roleFor_expr? (table : PatternTable) (limit : Nat) (r : LexicalRule) :
    (roleFor table limit r).expr? = meaning? table limit r := by
  unfold roleFor
  cases hclass : r.classRule with
  | none => cases meaning? table limit r <;> rfl
  | some c =>
    have hnone : meaning? table limit r = none := by simp [meaning?, isCompiled, hclass]
    rw [hnone]
    cases r.regex.constant? <;> rfl

/-- The plan for rules that are compiled one after the other. -/
def sharedPlan (g : Grammar) (limit : Nat) : Plan :=
  let table := (patternTable g).1
  let (compiled, a) := addRules table limit g.lexicalRules.toList {}
  planOn g (g.lexicalRules.toList.map (roleFor table limit)) compiled a

/-- The tables for rules that are compiled one after the other. -/
def sharedTables (g : Grammar) (o : LexOptions) : LexTable :=
  tablesFor g o.debug (sharedPlan g o.maxRepeat)

theorem plan_fst (g : Grammar) (limit : Nat) : (plan g limit).1
    = planFor g (g.lexicalRules.toList.map (roleFor (patternTable g).1 limit)) := by
  simp only [plan, List.map_map]
  congr 2
  funext r
  exact roleOf_fst g _ _ r

/-- **What rules that fail leave in the automaton does not show in the tables.** -/
theorem sharedTables_eq (g : Grammar) (o : LexOptions) : sharedTables g o = (build g o).1 := by
  have hempty : Nfa.Bounded {} := ⟨by simp, by simp⟩
  obtain ⟨f, -, -, hsame⟩ := @addRules_sameRules (patternTable g).1 o.maxRepeat
    g.lexicalRules.toList _ _ _ (Nfa.Embeds.refl {}) hempty hempty
  have hmeanings : (g.lexicalRules.toList.map (roleFor (patternTable g).1 o.maxRepeat)).map Role.expr?
      = g.lexicalRules.toList.map (meaning? (patternTable g).1 o.maxRepeat) := by
    rw [List.map_map]
    exact List.map_congr_left fun r _ => roleFor_expr? _ _ r
  obtain ⟨sets, sets', hagrees⟩ := planOn_agrees hsame.embeds hsame.bounded hsame.bounded'
    hsame.inside g (g.lexicalRules.toList.map (roleFor (patternTable g).1 o.maxRepeat))
  rw [build_fst, plan_fst, planFor_eq_planOn, hmeanings, hagrees.tablesFor_eq, ← hsame.rules]
  rfl

end GrammarTables.Lexical

/-! ## 4. Other regular expressions -/

namespace GrammarTables.Grammar

/-- The grammar with another regular expression in the lexical rule of an index. -/
def setRegex (g : Grammar) (i : Nat) (re : Regex) : Grammar :=
  { g with lexicalRules := g.lexicalRules.modify i fun r => { r with regex := re } }

/-- The grammar with the same regular expression in all lexical rules. -/
def withRegexes (g : Grammar) (re : Regex) : Grammar :=
  { g with lexicalRules := g.lexicalRules.map fun r => { r with regex := re } }

theorem withRegexes_setRegex (g : Grammar) (i : Nat) (re re' : Regex) :
    (g.setRegex i re).withRegexes re' = g.withRegexes re' := by
  have hrules : (g.lexicalRules.modify i fun r => { r with regex := re }).map
      (fun r => ({ r with regex := re' } : LexicalRule))
        = g.lexicalRules.map fun r => { r with regex := re' } := by
    refine Array.ext_getElem? fun j => ?_
    rw [Array.getElem?_map, Array.getElem?_map, Array.getElem?_modify]
    split
    · cases g.lexicalRules[j]? <;> rfl
    · rfl
  simp only [withRegexes, setRegex, hrules]

end GrammarTables.Grammar

namespace GrammarTables.Lexical

open Regex (Tree)

section Regexes

variable (g : Grammar) (re : Regex)

theorem ruleNameAt_withRegexes (i : Nat) : ruleNameAt (g.withRegexes re) i = ruleNameAt g i := by
  unfold ruleNameAt
  simp only [Grammar.withRegexes, Array.getElem?_map]
  cases g.lexicalRules[i]? <;> rfl

theorem ranksBefore_withRegexes :
    ranksBefore (g.withRegexes re).lexicalRules = ranksBefore g.lexicalRules := by
  funext r s
  rw [Bool.eq_iff_iff]
  simp only [ranksBefore, Grammar.withRegexes, Array.getElem?_map, Bool.or_eq_true,
    Bool.and_eq_true, decide_eq_true_eq]
  cases g.lexicalRules[r]? <;> cases g.lexicalRules[s]? <;> rfl

theorem ruleEntries_withRegexes (compiled : List (Option CompiledRule)) (state : Nat) :
    ruleEntries (g.withRegexes re) compiled state = ruleEntries g compiled state := by
  unfold ruleEntries
  simp only [Grammar.withRegexes, Array.toList_map]
  rw [List.zip_map_left, List.filterMap_map]
  rfl

theorem planOn_withRegexes (roles : List Role) (compiled : List (Option CompiledRule)) (a : Nfa) :
    planOn (g.withRegexes re) roles compiled a = planOn g roles compiled a := by
  have hentries : ruleEntries (g.withRegexes re) compiled = ruleEntries g compiled :=
    funext (ruleEntries_withRegexes g re compiled)
  unfold planOn planIn fullDfa
  rw [hentries, ranksBefore_withRegexes]
  rfl

theorem takenWords_withRegexes (p : Plan) : takenWords (g.withRegexes re) p = takenWords g p := by
  have hnames : ruleNameAt (g.withRegexes re) = ruleNameAt g := funext (ruleNameAt_withRegexes g re)
  have htake : ∀ (taken : List TakenWord) (r : Nat) (rule : LexicalRule) (word : List Char),
      takeWord (g.withRegexes re) p taken r { rule with regex := re } word
        = takeWord g p taken r rule word := by
    intro taken r rule word
    unfold takeWord
    rw [hnames]
    rfl
  have hrules : (g.withRegexes re).lexicalRules.toList
      = g.lexicalRules.toList.map fun r => { r with regex := re } := Array.toList_map
  unfold takenWords
  rw [hrules, List.zip_map_left, List.zipIdx_map, List.foldl_map]
  congr 1
  funext acc item
  obtain ⟨⟨rule, role⟩, r⟩ := item
  simp only [Prod.map, id, htake]

theorem tablesFor_withRegexes (debug : Bool) (p : Plan) :
    tablesFor (g.withRegexes re) debug p = tablesFor g debug p := by
  have hnames : ruleNameAt (g.withRegexes re) = ruleNameAt g := funext (ruleNameAt_withRegexes g re)
  have hdescribe : describe (g.withRegexes re) = describe g := by
    funext d t
    unfold describe
    rw [hnames]
    rfl
  have htable : tableOf (g.withRegexes re) p = tableOf g p := by
    funext cells instances
    unfold tableOf
    simp [Grammar.withRegexes, Function.comp_def]
    rfl
  unfold tablesFor
  rw [takenWords_withRegexes, htable, hdescribe]

end Regexes

/-! ## 5. Constant texts -/

section Constant

variable {set : Flags → Tree → Except ResolveError CharSet}
  {pattern : String → Flags → Except Cause Expr} {limit : Nat}

theorem constantAll?_cons {t : Tree} {ts : List Tree} {w : List Char}
    (h : Tree.constantAll? (t :: ts) = some w) :
    ∃ u v, t.constant? = some u ∧ Tree.constantAll? ts = some v ∧ w = u ++ v := by
  rw [Tree.constantAll?] at h
  obtain ⟨u, hu, h⟩ := Option.bind_eq_some_iff.mp h
  obtain ⟨v, hv, h⟩ := Option.bind_eq_some_iff.mp h
  cases h
  exact ⟨u, v, hu, hv, rfl⟩

/-- The code point of a character is the number it was read from. -/
theorem toNat_ofNat {c : Nat} (h : isScalar c = true) : (Char.ofNat c).toNat = c := by
  have hmax : maxCodePoint = 0x10FFFF := rfl
  simp only [isScalar, Bool.or_eq_true, Bool.and_eq_true, decide_eq_true_eq] at h
  have hvalid : c.isValidChar := by
    unfold Nat.isValidChar
    omega
  rw [Char.toNat_ofNat, if_pos hvalid]

/-- The language of one word: the code points of a text. -/
def textLanguage (w : List Char) : Language Nat := {w.map Char.toNat}

theorem textLanguage_nil : textLanguage [] = 1 := rfl

theorem textLanguage_append (v w : List Char) :
    textLanguage (v ++ w) = textLanguage v * textLanguage w := by
  rw [textLanguage, List.map_append]
  exact Set.image2_singleton.symm

theorem letters_single {c : Nat} (h : isScalar c = true) :
    letters (.single c) = textLanguage [Char.ofNat c] := by
  ext w
  rw [mem_letters, textLanguage, List.map_cons, toNat_ofNat h, List.map_nil]
  simp only [CharSet.mem_single, exists_eq_left]
  exact Iff.rfl

mutual

/-- **Plain characters have a meaning**: the text that they spell, where case matters. -/
theorem exprWith_of_constant : ∀ (t : Tree) (flags : Flags) {w : List Char}, t.constant? = some w →
    ∃ e, exprWith set pattern limit flags t = .ok e ∧
      (flags.caseInsensitive = false → e.language = textLanguage w)
  | .empty _, flags, w, h => by
    cases h
    exact ⟨.seq [], by rw [exprWith], fun _ => by rw [Expr.language, seqLanguage, textLanguage_nil]⟩
  | .char _ c, flags, w, h => by
    rw [Tree.constant?] at h
    obtain ⟨hc, h⟩ := Option.ite_none_right_eq_some.mp h
    cases h
    refine ⟨_, by rw [exprWith], fun hcase => ?_⟩
    rw [Expr.language, Flags.fold, hcase]
    exact letters_single hc
  | .seq _ items, flags, w, h => by
    rw [Tree.constant?] at h
    obtain ⟨es, hes, hlanguage⟩ := exprsWith_of_constantAll items flags h
    refine ⟨.seq es, by rw [exprWith, hes]; rfl, fun hcase => ?_⟩
    rw [Expr.language, hlanguage hcase]
  | .group _ none inner, flags, w, h => by
    rw [Tree.constant?] at h
    obtain ⟨e, he, hlanguage⟩ := exprWith_of_constant inner (flags.apply none) h
    exact ⟨e, by rw [exprWith, he], hlanguage⟩

theorem exprsWith_of_constantAll : ∀ (ts : List Tree) (flags : Flags) {w : List Char},
    Tree.constantAll? ts = some w → ∃ es, exprsWith set pattern limit flags ts = .ok es ∧
      (flags.caseInsensitive = false → seqLanguage es = textLanguage w)
  | [], flags, w, h => by
    cases h
    exact ⟨[], by rw [exprsWith], fun _ => by rw [seqLanguage, textLanguage_nil]⟩
  | t :: ts, flags, w, h => by
    obtain ⟨u, v, hu, hv, rfl⟩ := constantAll?_cons h
    obtain ⟨e, he, hfirst⟩ := exprWith_of_constant t flags hu
    obtain ⟨es, hes, hrest⟩ := exprsWith_of_constantAll ts flags hv
    refine ⟨e :: es, by rw [exprsWith, he, hes]; rfl, fun hcase => ?_⟩
    rw [seqLanguage, hfirst hcase, hrest hcase, textLanguage_append]

end

theorem constant?_of_mem : ∀ {ts : List Tree} {w : List Char}, Tree.constantAll? ts = some w →
    ∀ t ∈ ts, ∃ v, t.constant? = some v
  | t :: ts, w, h, u, hu => by
    obtain ⟨first, rest, hfirst, hrest, -⟩ := constantAll?_cons h
    rcases List.mem_cons.mp hu with rfl | hu
    · exact ⟨first, hfirst⟩
    · exact constant?_of_mem hrest u hu

/-- A constant text has no lookahead. -/
theorem splitLookahead_of_constant {t : Tree} {w : List Char} (h : t.constant? = some w) :
    ∃ body, splitLookahead t = .ok (body, none) ∧ Tree.constantAll? body = some w := by
  cases t with
  | seq r items =>
    rw [Tree.constant?] at h
    refine ⟨items, ?_, h⟩
    rw [splitLookahead]
    split
    · rename_i r' inner hlast
      obtain ⟨v, hv⟩ := constant?_of_mem h _ (List.mem_of_getLast? hlast)
      cases hv
    · rfl
  | notFollowedBy => cases h
  | _ => exact ⟨_, rfl, by rw [Tree.constantAll?, h, Tree.constantAll?]; simp⟩

end Constant

/-- **A constant text resolves to itself**, without a lookahead. -/
theorem resolveRule_of_constant (table : PatternTable) (limit : Nat) {re : Regex} {w : List Char}
    (h : re.root.constant? = some w) : ∃ e, resolveRule table limit re = .ok e ∧
      e.lookahead = none ∧ seqLanguage e.body = textLanguage w := by
  obtain ⟨body, hsplit, hbody⟩ := splitLookahead_of_constant h
  obtain ⟨es, hes, hlanguage⟩ := @exprsWith_of_constantAll (resolveSet table)
    (patternExpr table limit table.patterns.length) limit body {} w hbody
  refine ⟨⟨es, none⟩, ?_, rfl, hlanguage rfl⟩
  rw [resolveRule_eq, ruleParts, hsplit]
  change (resolveAll table limit {} body).map _ = _
  rw [resolveAll, hes]
  rfl

/-! ## 6. Rules that fail -/

/-- A rule whose compilation fails has no meaning. -/
theorem resolveRule_of_compileRule {table : PatternTable} {limit : Nat} {re : Regex} {a b : Nfa}
    {e : ResolveError} (h : compileRule table limit re a = .error e b) :
    resolveRule table limit re = .error e := by
  have hgives := gives_compileRule table limit re a
  cases hresolve : resolveRule table limit re with
  | ok x =>
    rw [hresolve] at hgives
    cases h.symm.trans hgives
  | error e' =>
    rw [hresolve] at hgives
    obtain ⟨c, hc, -⟩ := hgives
    cases h.symm.trans hc
    rfl

theorem roleFor_of_error {table : PatternTable} {limit : Nat} {r : LexicalRule} {e : ResolveError}
    (h : resolveRule table limit r.regex = .error e) : roleFor table limit r = .dropped := by
  have hmeaning : meaning? table limit r = none := by simp [meaning?, h, Except.toOption]
  have hconstant : r.regex.constant? = none := by
    unfold Regex.constant?
    split
    · cases hw : r.regex.root.constant? with
      | none => rfl
      | some w =>
        obtain ⟨x, hx, -⟩ := resolveRule_of_constant table limit hw
        cases h.symm.trans hx
    · rfl
  rw [roleFor, hmeaning, hconstant]
  cases r.classRule <;> rfl

theorem roleFor_of_not_isValid {table : PatternTable} {limit : Nat} {r : LexicalRule}
    (h : r.regex.isValid = false) : roleFor table limit r = .dropped := by
  have hmeaning : meaning? table limit r = none := by simp [meaning?, isCompiled, h]
  have hconstant : r.regex.constant? = none := by simp [Regex.constant?, h]
  rw [roleFor, hmeaning, hconstant]
  cases r.classRule <;> rfl

/-- A dropped rule has the same tables with any regular expression for which it is dropped. -/
theorem tables_setRegex {g : Grammar} {o : LexOptions} {i : Nat} {r : LexicalRule} {re : Regex}
    (hr : g.lexicalRules[i]? = some r)
    (hrole : roleFor (patternTable g).1 o.maxRepeat { r with regex := re }
      = roleFor (patternTable g).1 o.maxRepeat r) :
    (build (g.setRegex i re) o).1 = (build g o).1 := by
  have hroles : (g.setRegex i re).lexicalRules.toList.map (roleFor (patternTable g).1 o.maxRepeat)
      = g.lexicalRules.toList.map (roleFor (patternTable g).1 o.maxRepeat) := by
    refine List.ext_getElem? fun j => ?_
    simp only [List.getElem?_map, Array.getElem?_toList, Grammar.setRegex, Array.getElem?_modify]
    split
    · rename_i hij
      rw [← hij, hr, Option.map_some, Option.map_some, Option.map_some, hrole]
    · rfl
  have htable : patternTable (g.setRegex i re) = patternTable g := rfl
  -- beyond the roles no regular expression is read, so all may be replaced by the same one
  have hplan : (plan (g.setRegex i re) o.maxRepeat).1 = (plan g o.maxRepeat).1 := by
    rw [plan_fst, plan_fst, htable, hroles, planFor_eq_planOn, planFor_eq_planOn,
      ← planOn_withRegexes _ re, Grammar.withRegexes_setRegex, planOn_withRegexes]
  rw [build_fst, build_fst, hplan, ← tablesFor_withRegexes _ re, Grammar.withRegexes_setRegex,
    tablesFor_withRegexes]

/-- **A rule that fails leaves the tables of a rule with mistakes.** -/
theorem build_setRegex {g : Grammar} {o : LexOptions} {i : Nat} {r : LexicalRule} {a b : Nfa}
    {e : ResolveError} {re : Regex} (hr : g.lexicalRules[i]? = some r)
    (hfails : compileRule (patternTable g).1 o.maxRepeat r.regex a = .error e b)
    (hre : re.isValid = false) :
    (build (g.setRegex i re) o).1 = (build g o).1 ∧
      sharedTables (g.setRegex i re) o = sharedTables g o ∧ sharedTables g o = (build g o).1 := by
  have hdropped := roleFor_of_error (resolveRule_of_compileRule hfails)
  have hdropped' : roleFor (patternTable g).1 o.maxRepeat { r with regex := re } = .dropped :=
    roleFor_of_not_isValid hre
  have htables := tables_setRegex hr (hdropped'.trans hdropped.symm)
  refine ⟨htables, ?_, sharedTables_eq g o⟩
  rw [sharedTables_eq, sharedTables_eq, htables]

/-- Two rules, `b{nope}` and `[a-c]+`, of which the first refers to a pattern that does not exist. -/
def brokenGrammar : Grammar :=
  { draft := 0
    symbols := #[
      { index := 0, name := eoiName, kind := .terminal },
      { index := 1, name := "broken", kind := .terminal },
      { index := 2, name := "word", kind := .terminal }]
    terminals := 3
    grammarSymbols := 3
    rules := none
    priorities := none
    inputs := none
    lexicalRules := #[
      { kind := .normal, symbol := 1, regex := (Regex.parse "b{nope}" none).1, states := [0] },
      { kind := .normal, symbol := 2, regex := (Regex.parse "[a-c]+" none).1, states := [0] }]
    patterns := #[]
    states := #[{ name := "initial" }]
    error := none
    positions := #[0, 1, 2] }

/-- What the first rule of `brokenGrammar` leaves behind: a move that reads `b`, which tells apart
code points that the second rule does not. -/
def brokenLeftover : Nfa := { size := 3, silent := [(0, 1)], reading := [(1, .single 98, 2)] }

theorem compileRule_brokenGrammar :
    compileRule (patternTable brokenGrammar).1 1000 (Regex.parse "b{nope}" none).1 {}
      = .error ⟨.unknownPattern "nope", ⟨1, 7⟩⟩ brokenLeftover := by
  have hroot : (Regex.parse "b{nope}" none).1.root
      = .seq ⟨0, 7⟩ [.char ⟨0, 1⟩ 98, .expand ⟨1, 7⟩ "nope"] := by cbv
  rw [compileRule, ruleParts, hroot]
  rfl

theorem build_setRegex_brokenGrammar :
    compileRule (patternTable brokenGrammar).1 1000 (Regex.parse "b{nope}" none).1 {}
        = .error ⟨.unknownPattern "nope", ⟨1, 7⟩⟩ brokenLeftover ∧
      (plan brokenGrammar 1000).1.alphabet.count < (sharedPlan brokenGrammar 1000).alphabet.count ∧
      (build (brokenGrammar.setRegex 0 (Regex.parse "b(" none).1) {}).1 = (build brokenGrammar {}).1 ∧
      sharedTables (brokenGrammar.setRegex 0 (Regex.parse "b(" none).1) {}
        = sharedTables brokenGrammar {} ∧
      sharedTables brokenGrammar {} = (build brokenGrammar {}).1 :=
  ⟨compileRule_brokenGrammar, by decide +kernel,
    build_setRegex (o := {}) rfl compileRule_brokenGrammar (by decide +kernel)⟩

end GrammarTables.Lexical
