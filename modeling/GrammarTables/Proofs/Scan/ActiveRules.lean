import GrammarTables.Proofs.Scan.Coverage
/-
# Which rules produce tokens

A token comes from a rule that is active in the lexer state of the scanner, or from a rule that
takes words from such a rule (`active_or_taken_of_token`).  The words of a class rule stand in one
table whatever the lexer state, so a rule that is not active produces a token wherever its class
rule is active (`inactive_rule_produces`).  Where the rules that take words are active with their
class rules (`TakersActive`), only active rules produce tokens.
-/

namespace GrammarTables.Scan

open Lexical

/-! ## 1. Where tokens come from -/

/-- The match behind a token that is not the end of the input. -/
theorem exists_match_of_token {sc : Scanner} {token : Token}
    (h : sc.next.result = .ok (some token)) (haction : token.action ≠ 0) :
    ∃ start m, sc.table.stateMap[sc.state]? = some start ∧
      (walk sc.table start 0 0 [] sc.rest).match? = some m ∧ m.action ≠ 0 ∧
      token.action = (sc.table.instance? m.action (String.ofList (sc.rest.take m.length))).getD
        m.action := by
  have hcalled := sc.called_next
  generalize sc.next = scanned at h hcalled
  cases hcalled with
  | stopped | noStart => cases h
  | afterEnd | finish =>
    cases h
    exact absurd rfl haction
  | @produce sc' start m events hdone hend hmap hmatch hsc hm =>
    refine ⟨start, m, hmap, hmatch, hm, ?_⟩
    rw [← hsc]
    cases h
    rfl
  | skip =>
    unfold Scanner.skip at h
    split at h <;> cases h

/-- The rule of a match is active. -/
theorem active_of_match {g : Grammar} (hg : g.Frozen) {options : LexOptions} {q start : Nat}
    {text : List Char} {m : Match} (hmap : (build g options).1.stateMap[q]? = some start)
    (hmatch : (walk (build g options).1 start 0 0 [] text).match? = some m)
    (haction : m.action ≠ 0) :
    ∃ i r, m.action = i + 1 ∧ g.lexicalRules[i]? = some r ∧ q ∈ r.states := by
  obtain ⟨-, hreader⟩ := build_reader g options hg hmap
  have hfits := walk_fits hreader (build_represents g options) text 0 (Matcher.at_nil.mpr rfl)
    (by simp) (fun x hx => absurd hx List.not_mem_nil) hmatch
  rcases hfits with ⟨i, k, hfits, his⟩ | ⟨-, -, rfl⟩
  · obtain ⟨r, e, hr, -, hactive, -⟩ := hfits.2.2.1
    exact ⟨i, r, his.1, hr, hactive⟩
  · exact absurd rfl haction

/-- **A token comes from a rule that is active, or that takes words from one.** -/
theorem active_or_taken_of_token {g : Grammar} (hg : g.Frozen) {options : LexOptions}
    {sc : Scanner} (htable : sc.table = (build g options).1) {token : Token}
    (h : sc.next.result = .ok (some token)) (haction : token.action ≠ 0) :
    ∃ i r, token.action = i + 1 ∧ g.lexicalRules[i]? = some r ∧
      (sc.state ∈ r.states ∨ ∃ c s, r.classRule = some c ∧ g.lexicalRules[c]? = some s ∧
        sc.state ∈ s.states) := by
  obtain ⟨start, m, hmap, hmatch, hm, htoken⟩ := exists_match_of_token h haction
  rw [htable] at hmap hmatch htoken
  obtain ⟨i, s, hi, hs, hactive⟩ := active_of_match hg hmap hmatch hm
  cases howner : (build g options).1.instance? m.action
      (String.ofList (sc.rest.take m.length)) with
  | none =>
    rw [howner] at htoken
    exact ⟨i, s, htoken.trans hi, hs, Or.inl hactive⟩
  | some owner =>
    obtain ⟨w, hw, hclass, -, rfl⟩ := instance?_eq_some rfl howner
    obtain ⟨r, -, hr, -, hrule, -⟩ := mem_takenWords hw
    rw [howner] at htoken
    obtain rfl : w.classRule = i := by omega
    exact ⟨w.owner, r, htoken, hr, Or.inr ⟨w.classRule, s, hrule, hs, hactive⟩⟩

/-! ## 2. Runs -/

theorem Run.call_setState (r : Run) (state : Nat) : r.call (.setState state) =
    if state < r.scanner.table.stateMap.size then { r with scanner := { r.scanner with state } }
    else r := by
  by_cases hstate : state < r.scanner.table.stateMap.size <;>
    simp only [call, Scanner.setState, hstate, if_true, if_false]

theorem Run.table_of (table : LexTable) (text : String) (calls : List Call) :
    (of table text calls).scanner.table = table := by
  induction calls using List.reverseRecOn with
  | nil => rfl
  | append_singleton calls c ih =>
    rw [of_snoc]
    cases c with
    | next => exact (Scanner.keeps_next _).1.trans ih
    | setState state =>
      rw [call_setState]
      split
      · exact ih
      · exact ih

/-- In a lexer state, the rules that take words from an active class rule are active. -/
def TakersActive (g : Grammar) (state : Nat) : Prop :=
  ∀ r ∈ g.lexicalRules, ∀ c ∈ r.classRule, ∀ s ∈ g.lexicalRules[c]?,
    state ∈ s.states → state ∈ r.states

/-- **Only active rules produce tokens**, whatever is called in whatever order. -/
theorem token_of_active_rule {g : Grammar} (hg : g.Frozen) (options : LexOptions) (text : String)
    (calls : List Call) {token : Token}
    (hnext : (Run.of (build g options).1 text calls).scanner.next.result = .ok (some token))
    (haction : 0 < token.action)
    (htakers : TakersActive g (Run.of (build g options).1 text calls).scanner.state) :
    ∃ r, g.lexicalRules[token.action - 1]? = some r ∧
      (Run.of (build g options).1 text calls).scanner.state ∈ r.states := by
  obtain ⟨i, r, hi, hr, hactive⟩ :=
    active_or_taken_of_token hg (Run.table_of _ _ _) hnext (Nat.ne_of_gt haction)
  refine ⟨r, by rw [hi]; exact hr, ?_⟩
  rcases hactive with hactive | ⟨c, s, hc, hs, hactive⟩
  · exact hactive
  · exact htakers r (Array.mem_of_getElem? hr) c hc s hs hactive

/-! ## 3. A rule that is not active -/

/-- A grammar with two lexer states: names in both of them, and a keyword that is taken from the
names in the first one only. -/
def keywordDraft : Draft :=
  { stamp := 0
    symbols := #[{ index := 0, name := eoiName, kind := .terminal },
      { index := 1, name := "name", kind := .terminal },
      { index := 2, name := "keyword", kind := .terminal }]
    states := #[{ name := "initial" }, { name := "other" }]
    lexicalRules := #[
      { kind := .wordClass, symbol := 1, regex := (Regex.parse "[a-z]+" none).1, states := [0, 1] },
      { kind := .normal, symbol := 2, regex := (Regex.parse "if" none).1, states := [0]
        classRule := some 0 }] }

theorem keywordDraft_reached : keywordDraft.Reached := by
  have hname : (Draft.new 0).addTerminal "name" none none
      = .ok (⟨0, 1⟩, { Draft.new 0 with symbols := keywordDraft.symbols.take 2 }) := by
    cbv
  have hkeyword : { Draft.new 0 with symbols := keywordDraft.symbols.take 2 }.addTerminal "keyword"
        none none
      = .ok (⟨0, 2⟩, { Draft.new 0 with symbols := keywordDraft.symbols }) := by
    cbv
  have hinitial : { Draft.new 0 with symbols := keywordDraft.symbols }.addState "initial" none
      = .ok (⟨0, 0⟩, { keywordDraft with
          states := keywordDraft.states.take 1, lexicalRules := #[] }) := by
    cbv
  have hother : { keywordDraft with
        states := keywordDraft.states.take 1, lexicalRules := #[] }.addState "other" none
      = .ok (⟨0, 1⟩, { keywordDraft with lexicalRules := #[] }) := by
    cbv
  have hnames : { keywordDraft with lexicalRules := #[] }.addLexicalRule .wordClass ⟨0, 1⟩
      (Regex.parse "[a-z]+" none).1 [⟨0, 0⟩, ⟨0, 1⟩] 0 none none
      = .ok (⟨0, 0⟩, { keywordDraft with lexicalRules := keywordDraft.lexicalRules.take 1 }) := by
    cbv
  have hkeywords : { keywordDraft with
        lexicalRules := keywordDraft.lexicalRules.take 1 }.addLexicalRule .normal ⟨0, 2⟩
      (Regex.parse "if" none).1 [⟨0, 0⟩] 0 (some ⟨0, 0⟩) none
      = .ok (⟨0, 1⟩, keywordDraft) := by
    cbv
  have hstates := ((Draft.Reached.new 0).terminal hname).terminal hkeyword |>.state hinitial
    |>.state hother
  exact (hstates.lexicalRule (.parse "[a-z]+" none) hnames).lexicalRule (.parse "if" none) hkeywords

theorem keywordDraft_frozen : keywordDraft.freeze.Frozen :=
  ⟨keywordDraft, keywordDraft_reached, rfl⟩

/-- The scanner before the keyword, after some calls. -/
def keywordRun (calls : List Call) : Run := .of (build keywordDraft.freeze {}).1 "if" calls

/-- The keyword as a token. -/
def keywordToken : Token := ⟨2, 2, "if", ⟨⟨0, 1, 1⟩, ⟨2, 1, 3⟩⟩⟩

theorem keywordRun_initial : (keywordRun []).scanner.next.result = .ok (some keywordToken) := by
  decide +kernel

/-- Where its class rule is active, the keyword is a token in both lexer states. -/
theorem keywordRun_other :
    (keywordRun [.setState 1]).scanner.next.result = .ok (some keywordToken) := by
  decide +kernel

/-- **A rule that is not active produces a token**: the table of words does not know about lexer
states. -/
theorem inactive_rule_produces : keywordDraft.freeze.Frozen ∧
    (keywordRun [.setState 1]).scanner.next.result = .ok (some keywordToken) ∧
    0 < keywordToken.action ∧
    ¬ ∃ r, keywordDraft.freeze.lexicalRules[keywordToken.action - 1]? = some r ∧
      (keywordRun [.setState 1]).scanner.state ∈ r.states := by
  refine ⟨keywordDraft_frozen, keywordRun_other, by decide, ?_⟩
  have hstate : (keywordRun [.setState 1]).scanner.state = 1 := by decide +kernel
  have hrule : keywordDraft.freeze.lexicalRules[keywordToken.action - 1]?.map (·.states)
      = some [0] := by
    decide +kernel
  rintro ⟨r, hr, hmem⟩
  rw [hr] at hrule
  rw [hstate, show r.states = [0] from Option.some.inj hrule] at hmem
  exact absurd hmem (by decide)

theorem takersActive_keywordDraft : TakersActive keywordDraft.freeze 0 := by
  unfold TakersActive
  decide +kernel

theorem token_of_active_rule_keyword : keywordDraft.freeze.Frozen ∧
    TakersActive keywordDraft.freeze (keywordRun []).scanner.state ∧
    (keywordRun []).scanner.next.result = .ok (some keywordToken) ∧
    ∃ r, keywordDraft.freeze.lexicalRules[keywordToken.action - 1]? = some r ∧
      (keywordRun []).scanner.state ∈ r.states :=
  ⟨keywordDraft_frozen, takersActive_keywordDraft, keywordRun_initial,
    token_of_active_rule keywordDraft_frozen {} "if" [] keywordRun_initial (by decide)
      takersActive_keywordDraft⟩

end GrammarTables.Scan
