import GrammarTables.Proofs.Lexical.Acceptance
import GrammarTables.Proofs.Regex.Quoting
/-
# Constant texts

Rules that stand in for a class rule are never compiled; the text that is read off their trees is
trusted in their place.  That text is what they would have accepted: a rule with a constant text
compiles, whatever the named patterns and the limit are, it has no lookahead, and its fragment
accepts the text and nothing else (`constant_accepts`).

What resolving such a tree comes to is in `resolveRule_of_constant`.
-/

namespace GrammarTables

/-! ## 1. Literals -/

/-- The constant text of a literal is the text itself. -/
theorem Regex.constant?_literal (text : String) : (literal text).constant? = some text.toList := by
  change (literal text).root.constant? = some text.toList
  rw [← Tree.constant?_bare, Tree.bare_literal, Tree.constant?_ofText]

namespace Lexical

open Relation (ReflTransGen)

/-! ## 2. Rules -/

theorem mem_textLanguage {cs : List Char} {w : List Nat} :
    w ∈ textLanguage cs ↔ w = cs.map Char.toNat := Iff.rfl

/-- A rule that resolves is compiled to what is built for it. -/
theorem compileRule_of_resolveRule {table : PatternTable} {limit : Nat} {re : Regex} {e : RuleExpr}
    (h : resolveRule table limit re = .ok e) (a : Nfa) :
    compileRule table limit re a = .ok (e.build a).1 (e.build a).2 := by
  have hgives := gives_compileRule table limit re a
  rwa [h] at hgives

/-- **Constant texts are sound.**  A rule with a constant text compiles with every table of patterns
and every limit, in every automaton that rules were compiled into.  It has no lookahead, and now and
when more rules are compiled its fragment accepts that text alone.  And the constant text of a
literal is the text itself. -/
theorem constant_accepts :
    (∀ (re : Regex) (cs : List Char), re.constant? = some cs →
      ∀ (table : PatternTable) (limit : Nat) (a : Nfa), ReflTransGen Nfa.Compiles {} a →
        ∃ c b, compileRule table limit re a = .ok c b ∧ c.lookahead = none ∧
          ∀ later, ReflTransGen Nfa.Compiles b later → ∀ w : List Nat,
            Path later.silent later.reading c.fragment.start w c.fragment.stop ↔
              w = cs.map Char.toNat) ∧
    ∀ text : String, (Regex.literal text).constant? = some text.toList := by
  refine ⟨fun re cs h table limit a hbefore => ?_, Regex.constant?_literal⟩
  have hroot : re.root.constant? = some cs := (Option.ite_none_right_eq_some.mp h).2
  obtain ⟨e, hresolve, hahead, hlanguage⟩ := resolveRule_of_constant table limit hroot
  have hempty : Nfa.Bounded {} := ⟨by simp, by simp⟩
  have hbounded : a.Bounded := hempty.grows (grows_of_compiles hbefore)
  refine ⟨_, _, compileRule_of_resolveRule hresolve a, hahead, fun later hlater w => ?_⟩
  have hpath := path_build_iff (w := w) hbounded (.seq e.body) (grows_of_compiles hlater)
  rw [Expr.language, hlanguage] at hpath
  exact hpath.trans mem_textLanguage

/-- A text with an escape, an empty group and a group around a sequence. -/
theorem constant_accepts_dotted : ∃ c b,
    compileRule letterTable 0 (Regex.parse "a()(\\.(b))" none).1 brokenLeftover = .ok c b ∧
    c.lookahead = none ∧
    Path b.silent b.reading c.fragment.start [0x61, 0x2E, 0x62] c.fragment.stop ∧
    ¬ Path b.silent b.reading c.fragment.start [0x61, 0x2E] c.fragment.stop := by
  have hconstant : (Regex.parse "a()(\\.(b))" none).1.constant? = some ['a', '.', 'b'] := by
    cbv
  have hbefore : ReflTransGen Nfa.Compiles {} brokenLeftover :=
    .single (.error compileRule_brokenGrammar)
  obtain ⟨c, b, hrule, hahead, hpath⟩ :=
    constant_accepts.1 _ _ hconstant letterTable 0 brokenLeftover hbefore
  refine ⟨c, b, hrule, hahead, (hpath b .refl _).mpr rfl, fun h => ?_⟩
  exact absurd ((hpath b .refl _).mp h) (by decide)

end Lexical

end GrammarTables
