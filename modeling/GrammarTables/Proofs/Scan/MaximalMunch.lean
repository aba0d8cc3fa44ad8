import GrammarTables.Proofs.Lexical.Encoding
import GrammarTables.Proofs.Lexical.Resolve
import GrammarTables.Proofs.Scan.Progress
import GrammarTables.Proofs.Scan.Walk
/-
# Maximal munch

What one call of a scanner returns, said without tables: the lexical rules that were compiled and
are active in the lexer state compete for the text that is left, by what their regular
expressions mean as they were written (`Candidate`), the longest text wins, then priority, then
the order of declaration (`Winner`), and the outcome follows (`Outcome`).  The scanner does that
on the tables that are built from the grammar.
-/

namespace GrammarTables.Scan

open Lexical

/-! ## 1. The reference -/

/-- The rule of an index was compiled and is active in a lexer state. -/
def Competes (g : Grammar) (options : LexOptions) (state i : Nat) (r : LexicalRule) : Prop :=
  g.lexicalRules[i]? = some r ∧ state ∈ r.states ∧
    ∃ e, (roleOf g (patternTable g).1 options.maxRepeat r).1 = .matched e

/-- The rule of index `i` matches the first `k` characters of a text, or all of it and the end of
the input, which counts as one more. -/
def Candidate (g : Grammar) (options : LexOptions) (state : Nat) (text : List Char) (i k : Nat) :
    Prop :=
  ∃ r, Competes g options state i r ∧
    (1 ≤ k ∧ k ≤ text.length ∧ RuleMatches (patternTable g).1 r.regex.root
        ((text.take k).map Char.toNat) (text[k]?.map Char.toNat) ∨
      k = text.length + 1 ∧ RuleMatches (patternTable g).1 r.regex.root
        (text.map Char.toNat ++ [endMark]) none)

/-- The rule of index `i` has a higher priority than that of index `j`, or the same and was
declared before. -/
def Outranks (rules : Array LexicalRule) (i j : Nat) : Prop :=
  ∃ r s, rules[i]? = some r ∧ rules[j]? = some s ∧
    (s.priority < r.priority ∨ s.priority = r.priority ∧ i < j)

/-- The longest match, and of these the one whose rule outranks the others. -/
def Winner (g : Grammar) (options : LexOptions) (state : Nat) (text : List Char) (i k : Nat) :
    Prop :=
  Candidate g options state text i k ∧ ∀ j l, Candidate g options state text j l →
    l < k ∨ l = k ∧ (j = i ∨ Outranks g.lexicalRules i j)

/-- The symbol that an action produces: action 0 is the end of the input, the others are rules. -/
def actionSymbol (g : Grammar) : Nat → Nat
  | 0 => g.eoi
  | i + 1 => g.lexicalRules[i]?.elim g.eoi (·.symbol)

/-- The token of the rule of index `i` for a text.  A word that belongs to another rule becomes a
token of that rule. -/
def tokenOf (g : Grammar) (table : LexTable) (place : Position) (i : Nat) (text : List Char) :
    Token :=
  let action := (table.instance? (i + 1) (String.ofList text)).getD (i + 1)
  ⟨actionSymbol g action, action, String.ofList text, ⟨place, place.advanceAll text⟩⟩

/-- The token for the end of the input. -/
def eoiToken (g : Grammar) (place : Position) : Token := ⟨g.eoi, 0, "", .point place⟩

/-- What one call of a scanner returns, and the scanner after it. -/
inductive Outcome (g : Grammar) (options : LexOptions) (sc : Scanner) :
    Except ScanError (Option Token) → Scanner → Prop
  /-- After the end of the input there is nothing. -/
  | done : sc.done = true → Outcome g options sc (.ok none) sc
  /-- A match included the end of the input, which is still to be reported. -/
  | ended : sc.done = false → sc.atEnd = true →
      Outcome g options sc (.ok (some (eoiToken g sc.position))) { sc with done := true }
  /-- The winner becomes a token. -/
  | token {i k : Nat} : sc.done = false → sc.atEnd = false →
      Winner g options sc.state sc.rest i k →
      Outcome g options sc
        (.ok (some (tokenOf g sc.table sc.position i (sc.rest.take k))))
        { sc with
          rest := sc.rest.drop k
          position := sc.position.advanceAll (sc.rest.take k)
          atEnd := decide (k = sc.rest.length + 1) }
  /-- Nothing is left, and nothing matches it. -/
  | eoi : sc.done = false → sc.atEnd = false → sc.rest = [] →
      (∀ i k, ¬ Candidate g options sc.state sc.rest i k) →
      Outcome g options sc (.ok (some (eoiToken g sc.position))) { sc with done := true }
  /-- Nothing matches; one character is skipped. -/
  | invalid {c : Char} {rest : List Char} : sc.done = false → sc.atEnd = false →
      sc.rest = c :: rest → (∀ i k, ¬ Candidate g options sc.state sc.rest i k) →
      Outcome g options sc
        (.error (.invalidToken (String.singleton c) ⟨sc.position, sc.position.advance c⟩))
        { sc with rest := rest, position := sc.position.advance c }

/-! ## 2. Rules as the automaton sees them -/

/-- The roles of the rules of a grammar. -/
def rolesOf (g : Grammar) (limit : Nat) : List Role :=
  g.lexicalRules.toList.map fun r => (roleOf g (patternTable g).1 limit r).1

theorem plan_eq (g : Grammar) (limit : Nat) : (plan g limit).1 = planFor g (rolesOf g limit) := by
  simp [plan, rolesOf, List.map_map, Function.comp_def]

theorem getElem?_rolesOf {g : Grammar} {limit i : Nat} {e : RuleExpr} :
    (rolesOf g limit)[i]? = some (.matched e) ↔ ∃ r, g.lexicalRules[i]? = some r ∧
      (roleOf g (patternTable g).1 limit r).1 = .matched e := by
  rw [rolesOf, List.getElem?_map, Option.map_eq_some_iff, Array.getElem?_toList]

theorem mem_rolesOf {g : Grammar} {limit : Nat} {e : RuleExpr}
    (h : .matched e ∈ rolesOf g limit) : ∃ r ∈ g.lexicalRules,
      (roleOf g (patternTable g).1 limit r).1 = .matched e := by
  obtain ⟨i, hi⟩ := List.mem_iff_getElem?.mp h
  obtain ⟨r, hr, he⟩ := getElem?_rolesOf.mp hi
  exact ⟨r, Array.mem_of_getElem? hr, he⟩

/-- What must not follow a rule is Unicode. -/
theorem isUnicode_of_mem_rolesOf {g : Grammar} (hg : g.Frozen) {limit : Nat} {e : RuleExpr}
    (h : .matched e ∈ rolesOf g limit) : ∀ s ∈ e.lookahead, s.IsUnicode := by
  obtain ⟨r, hr, hrole⟩ := mem_rolesOf h
  exact (ruleMeaning_of_roleOf hg hr hrole).isUnicode

/-- A match of the automaton is a match of the rule as it was written. -/
theorem ruleMatches_iff {g : Grammar} (hg : g.Frozen) {limit i state : Nat} {w : List Nat}
    {next : Option Nat} :
    (∃ r e, g.lexicalRules[i]? = some r ∧ (roleOf g (patternTable g).1 limit r).1 = .matched e ∧
      state ∈ r.states ∧ RuleMatches (patternTable g).1 r.regex.root w next) ↔
    MatchesWord g (rolesOf g limit) state i w ∧
      ∀ c ∈ next, ¬ MustNotFollow (rolesOf g limit) i c := by
  constructor
  · rintro ⟨r, e, hr, he, hstate, hmatches⟩
    have hmeaning := ruleMeaning_of_roleOf hg (Array.mem_of_getElem? hr) he
    obtain ⟨hword, hnext⟩ := hmeaning.matches_iff.mp hmatches
    have hrole := getElem?_rolesOf.mpr ⟨r, hr, he⟩
    refine ⟨⟨r, e, hr, hrole, hstate, hword⟩, ?_⟩
    rintro c hc ⟨e', s, he', hs, hmem⟩
    obtain rfl : e = e' := by simpa [hrole] using he'
    exact hnext c hc s hs hmem
  · rintro ⟨⟨r, e, hr, hrole, hstate, hword⟩, hnext⟩
    obtain ⟨r', hr', he⟩ := getElem?_rolesOf.mp hrole
    obtain rfl : r = r' := Option.some.inj (hr.symm.trans hr')
    have hmeaning := ruleMeaning_of_roleOf hg (Array.mem_of_getElem? hr) he
    refine ⟨r, e, hr, he, hstate, hmeaning.matches_iff.mpr ⟨hword, ?_⟩⟩
    intro c hc s hs hmem
    exact hnext c hc ⟨e, s, hrole, hs, hmem⟩

/-- No lookahead speaks about the end of the input. -/
theorem not_mustNotFollow_endMark {g : Grammar} (hg : g.Frozen) {limit i : Nat} :
    ¬ MustNotFollow (rolesOf g limit) i endMark := by
  rintro ⟨e, s, hrole, hs, hmem⟩
  obtain ⟨r, hr, he⟩ := getElem?_rolesOf.mp hrole
  have hle := (ruleMeaning_of_roleOf hg (Array.mem_of_getElem? hr) he).isUnicode s hs _ hmem
  simp [maxCodePoint, endMark] at hle

/-- **The candidates are what fits the text with the end of the input.** -/
theorem candidate_iff {g : Grammar} (hg : g.Frozen) {options : LexOptions} {state i k : Nat}
    {text : List Char} : Candidate g options state text i k ↔
      Fits (MatchesWord g (rolesOf g options.maxRepeat) state)
        (MustNotFollow (rolesOf g options.maxRepeat)) (codes text) i k := by
  have hshort : ∀ {k : Nat}, k ≤ text.length →
      (codes text).take k = (text.take k).map Char.toNat := by
    intro k hk
    rw [codes, List.take_append_of_le_length (by simpa using hk), List.map_take]
  have hnext : ∀ {k : Nat}, k ≤ text.length →
      ((∀ c ∈ (codes text)[k]?, ¬ MustNotFollow (rolesOf g options.maxRepeat) i c) ↔
        ∀ c ∈ text[k]?.map Char.toNat, ¬ MustNotFollow (rolesOf g options.maxRepeat) i c) := by
    intro k hk
    rcases Nat.lt_or_eq_of_le hk with hlt | rfl
    · rw [codes, List.getElem?_append_left (by simpa using hlt), List.getElem?_map]
    · simp [codes, not_mustNotFollow_endMark hg]
  have hlength : (codes text).length = text.length + 1 := by simp [codes]
  constructor
  · rintro ⟨r, ⟨hr, hstate, e, he⟩, ⟨hpos, hle, hmatches⟩ | ⟨rfl, hmatches⟩⟩
    · obtain ⟨hword, hahead⟩ := (ruleMatches_iff hg).mp ⟨r, e, hr, he, hstate, hmatches⟩
      exact ⟨hpos, by omega, hshort hle ▸ hword, (hnext hle).mpr hahead⟩
    · obtain ⟨hword, -⟩ := (ruleMatches_iff hg).mp ⟨r, e, hr, he, hstate, hmatches⟩
      refine ⟨by omega, by omega, ?_, ?_⟩
      · rwa [List.take_of_length_le (by omega)]
      · simp [codes]
  · rintro ⟨hpos, hle, hword, hahead⟩
    rcases Nat.lt_or_ge text.length k with hlt | hge
    · obtain rfl : k = text.length + 1 := by omega
      rw [List.take_of_length_le (by omega)] at hword
      obtain ⟨r, e, hr, he, hstate, hmatches⟩ :=
        (@ruleMatches_iff g hg options.maxRepeat i state _ none).mpr ⟨hword, by simp⟩
      exact ⟨r, ⟨hr, hstate, e, he⟩, Or.inr ⟨rfl, hmatches⟩⟩
    · rw [hshort hge] at hword
      obtain ⟨r, e, hr, he, hstate, hmatches⟩ :=
        (ruleMatches_iff hg).mpr ⟨hword, (hnext hge).mp hahead⟩
      exact ⟨r, ⟨hr, hstate, e, he⟩, Or.inl ⟨hpos, hge, hmatches⟩⟩

theorem outranks_of_ranksBefore {rules : Array LexicalRule} {i j : Nat} {r s : LexicalRule}
    (hi : rules[i]? = some r) (hj : rules[j]? = some s) (h : ranksBefore rules i j = true) :
    Outranks rules i j := by
  refine ⟨r, s, hi, hj, ?_⟩
  simp only [ranksBefore, hi, hj, Bool.or_eq_true, Bool.and_eq_true, decide_eq_true_eq] at h
  exact h.imp_right fun h => ⟨h.1.symm, h.2⟩

/-- The best match is the winner. -/
theorem winner_of_best {g : Grammar} (hg : g.Frozen) {options : LexOptions} {state i k : Nat}
    {text : List Char} (h : Best (ranksBefore g.lexicalRules)
      (MatchesWord g (rolesOf g options.maxRepeat) state)
      (MustNotFollow (rolesOf g options.maxRepeat)) (codes text) i k) :
    Winner g options state text i k := by
  have hwins := (candidate_iff hg).mpr h.1
  refine ⟨hwins, ?_⟩
  intro j l hother
  refine (h.2 j l ((candidate_iff hg).mp hother)).imp_right fun hsame => ⟨hsame.1, ?_⟩
  refine hsame.2.imp_right fun hbefore => ?_
  obtain ⟨r, ⟨hr, -⟩, -⟩ := hwins
  obtain ⟨s, ⟨hs, -⟩, -⟩ := hother
  exact outranks_of_ranksBefore hr hs hbefore

/-! ## 3. The tables of a grammar -/

section Tables

variable (g : Grammar) (options : LexOptions)

/-- The description of the automaton is the only thing that options add to the table. -/
theorem exists_debug : ∃ d : Option String, (build g options).1 =
    { tableOf g (plan g options.maxRepeat).1 (plan g options.maxRepeat).1.matcher.cells
        (instanceGroups (takenWords g (plan g options.maxRepeat).1).1) with debug := d } :=
  ⟨_, rfl⟩

theorem cell?_withDebug (t : LexTable) (d : Option String) (s k : Nat) :
    ({ t with debug := d } : LexTable).cell? s k = t.cell? s k := rfl

theorem classOf_withDebug (t : LexTable) (d : Option String) (c : Nat) :
    ({ t with debug := d } : LexTable).classOf c = t.classOf c := rfl

theorem build_stateMap : (build g options).1.stateMap =
    (planFor g (rolesOf g options.maxRepeat)).matcher.dfa.starts.toArray := by
  rw [← plan_eq]
  rfl

theorem build_symbolOf (action : Nat) :
    (build g options).1.symbolOf action = actionSymbol g action := by
  have htable : (build g options).1.actionSymbol
      = (g.eoi :: g.lexicalRules.toList.map (·.symbol)).toArray := rfl
  rw [LexTable.symbolOf, htable, Array.getD_eq_getD_getElem?, List.getElem?_toArray]
  cases action with
  | zero => rfl
  | succ i =>
    rw [List.getElem?_cons_succ, List.getElem?_map, Array.getElem?_toList, actionSymbol]
    cases g.lexicalRules[i]? <;> rfl

/-- **The tables have the cells of the automaton**, for each character and for the end of the
input. -/
theorem build_cell? {s : Nat} (hs : s < (planFor g (rolesOf g options.maxRepeat)).matcher.dfa.size) :
    (∀ {c : Nat}, c < endMark → (build g options).1.cell? s ((build g options).1.classOf c) =
      some ((planFor g (rolesOf g options.maxRepeat)).matcher.cell
        (planFor g (rolesOf g options.maxRepeat)).matcher.mayFail s
        ((planFor g (rolesOf g options.maxRepeat)).alphabet.classOf c))) ∧
    (build g options).1.cell? s eoiClass =
      some ((planFor g (rolesOf g options.maxRepeat)).matcher.cell
        (planFor g (rolesOf g options.maxRepeat)).matcher.mayFail s eoiClass) := by
  obtain ⟨compiled, a, base, starts, sets, h⟩ := exists_parts g (rolesOf g options.maxRepeat)
  have hcount : (plan g options.maxRepeat).1.matcher.classes
      = (plan g options.maxRepeat).1.alphabet.count := by
    rw [plan_eq, h.plan_eq]
  have halphabet : (plan g options.maxRepeat).1.alphabet = .of sets := by
    rw [plan_eq, h.plan_eq]
  obtain ⟨d, hbuild⟩ := exists_debug g options
  rw [← plan_eq] at hs ⊢
  rw [hbuild]
  constructor
  · intro c hc
    rw [cell?_withDebug, classOf_withDebug, Plan.classOf_tableOf g _ _ halphabet hc]
    refine Plan.cell?_tableOf g _ _ hcount hs ?_
    rw [hcount, halphabet]
    exact (Alphabet.classOf_of_lt sets hc).2
  · have hpos : eoiClass < (plan g options.maxRepeat).1.matcher.classes := by
      rw [hcount, halphabet]
      exact Alphabet.count_pos sets
    have hcell := Plan.cell?_tableOf g (plan g options.maxRepeat).1
      (instanceGroups (takenWords g (plan g options.maxRepeat).1).1) hcount hs hpos
    rw [Plan.classOf_merge_eoi] at hcell
    rw [cell?_withDebug, hcell]

/-- **The tables represent the automaton of the grammar.** -/
theorem build_represents : Represents (build g options).1
    (planFor g (rolesOf g options.maxRepeat)).matcher
    (planFor g (rolesOf g options.maxRepeat)).alphabet.classOf where
  char hs hc := LexTable.cell_of_cell? ((build_cell? g options hs).1 hc)
  eoi hs := LexTable.cell_of_cell? (build_cell? g options hs).2

/-- In every lexer state, the automaton reads the words of the rules. -/
theorem exists_reader (hg : g.Frozen) {state : Nat} (hstate : state < g.states.size) :
    ∃ start, (planFor g (rolesOf g options.maxRepeat)).matcher.dfa.starts[state]? = some start ∧
      Reader (planFor g (rolesOf g options.maxRepeat)).matcher (ranksBefore g.lexicalRules)
        (planFor g (rolesOf g options.maxRepeat)).alphabet.classOf start
        (MatchesWord g (rolesOf g options.maxRepeat) state)
        (MustNotFollow (rolesOf g options.maxRepeat)) :=
  planFor_reader (fun _ he => isUnicode_of_mem_rolesOf hg he) hstate

/-- **The tables begin in a reader of the rules that are active.** -/
theorem build_reader (hg : g.Frozen) {q start : Nat}
    (hmap : (build g options).1.stateMap[q]? = some start) :
    (planFor g (rolesOf g options.maxRepeat)).matcher.dfa.starts[q]? = some start ∧
      Reader (planFor g (rolesOf g options.maxRepeat)).matcher (ranksBefore g.lexicalRules)
        (planFor g (rolesOf g options.maxRepeat)).alphabet.classOf start
        (MatchesWord g (rolesOf g options.maxRepeat) q)
        (MustNotFollow (rolesOf g options.maxRepeat)) := by
  rw [build_stateMap, List.getElem?_toArray] at hmap
  obtain ⟨start', hstart', hreader⟩ := exists_reader g options hg (planFor_starts_lt hmap)
  obtain rfl := Option.some.inj (hmap.symm.trans hstart')
  exact ⟨hmap, hreader⟩

end Tables

/-! ## 4. The scanner -/

/-- The token that a match of a rule produces. -/
theorem produce_outcome {g : Grammar} {options : LexOptions} {sc sc' : Scanner} {i k : Nat}
    {m : Match} (events : List ScanEvent) (hdone : sc.done = false) (hend : sc.atEnd = false)
    (hwinner : Winner g options sc.state sc.rest i k)
    (hsymbol : ∀ action, sc.table.symbolOf action = actionSymbol g action)
    (hm : IsMatch i k sc.rest.length m) (hsc : { sc' with stats := sc.stats } = sc) :
    Outcome g options sc (sc'.produce m events).result
      { (sc'.produce m events).scanner with stats := sc.stats } := by
  obtain ⟨haction, hlength, hatEnd⟩ := hm
  have htake : sc.rest.take m.length = sc.rest.take k := by
    rw [hlength]
    exact (List.take_eq_take_min).symm
  have hdrop : sc.rest.drop m.length = sc.rest.drop k := by
    rw [hlength]
    rcases Nat.le_total k sc.rest.length with hle | hge
    · rw [Nat.min_eq_left hle]
    · rw [Nat.min_eq_right hge, List.drop_length, List.drop_of_length_le hge]
  have hbool : m.atEnd = decide (k = sc.rest.length + 1) := by
    rw [Bool.eq_iff_iff, hatEnd, decide_eq_true_iff]
  have houtcome := Outcome.token hdone hend hwinner
  rw [← htake, ← hdrop, ← hbool, tokenOf, ← haction] at houtcome
  simp only [← hsymbol] at houtcome
  rw [← hsc] at houtcome ⊢
  exact houtcome

/-- **Maximal munch.** -/
theorem next_outcome {g : Grammar} (hg : g.Frozen) (options : LexOptions)
    (heoi : ∀ r ∈ g.lexicalRules, RuleEoiLast (patternTable g).1 r.regex.root) {sc : Scanner}
    (htable : sc.table = (build g options).1) (hstate : sc.state < g.states.size) :
    Outcome g options sc sc.next.result { sc.next.scanner with stats := sc.stats } := by
  have hlast : ∀ e, .matched e ∈ rolesOf g options.maxRepeat → (Expr.seq e.body).EoiLast := by
    intro e he
    obtain ⟨r, hr, hrole⟩ := mem_rolesOf he
    exact (ruleMeaning_of_roleOf hg hr hrole).eoiLast (heoi r hr)
  obtain ⟨start, hstart, hrecognizer⟩ :=
    planFor_recognizer hlast (fun e he => isUnicode_of_mem_rolesOf hg he) hstate
  have hwalk := walk_walksTo hrecognizer (build_represents g options) sc.rest 0 []
    (Matcher.at_nil.mpr rfl) (by simp)
  rw [← htable] at hwalk
  have hmap : sc.table.stateMap[sc.state]? = some start := by
    rw [htable, build_stateMap, List.getElem?_toArray, hstart]
  have hsymbol : ∀ action, sc.table.symbolOf action = actionSymbol g action := by
    rw [htable]
    exact build_symbolOf g options
  have hfinish : ∀ {sc' : Scanner} (events : List ScanEvent), { sc' with stats := sc.stats } = sc →
      (sc'.finish events).result = .ok (some (eoiToken g sc.position)) ∧
        { (sc'.finish events).scanner with stats := sc.stats } = { sc with done := true } := by
    intro sc' events hsc
    rw [eoiToken, ← show _ = g.eoi from hsymbol 0, ← hsc]
    exact ⟨rfl, rfl⟩
  cases hdone : sc.done with
  | true =>
    rw [show sc.next = ⟨.ok none, sc, []⟩ by simp [Scanner.next, hdone]]
    exact .done hdone
  | false =>
    cases hend : sc.atEnd with
    | true =>
      rw [show sc.next = sc.finish [] by simp [Scanner.next, hdone, hend], (hfinish [] rfl).1,
        (hfinish [] rfl).2]
      exact .ended hdone hend
    | false =>
      by_cases hcandidate : ∃ i k, Candidate g options sc.state sc.rest i k
      · obtain ⟨i, k, hcandidate⟩ := hcandidate
        obtain ⟨i, k, m, hbest, -, hmatch, his⟩ :=
          hwalk.found ⟨i, k, (candidate_iff hg).mp hcandidate, Nat.zero_le _⟩
        rw [List.length_nil, Nat.zero_add] at his
        obtain ⟨sc', hsc, hnext⟩ := next_of_match hdone hend hmap hmatch
        rw [hnext, if_neg (by rw [his.1]; exact Nat.succ_ne_zero _)]
        exact produce_outcome _ hdone hend (winner_of_best hg hbest) hsymbol his hsc
      · have hnone : ∀ i k, ¬ Candidate g options sc.state sc.rest i k :=
          fun i k h => hcandidate ⟨i, k, h⟩
        cases hrest : sc.rest with
        | nil =>
          have hmatch := hwalk.ended
            (by rintro ⟨i, k, hfits, -⟩; exact hnone i k ((candidate_iff hg).mpr hfits)) rfl hrest
          obtain ⟨sc', hsc, hnext⟩ := next_of_match hdone hend hmap hmatch
          rw [hnext, if_pos rfl, (hfinish _ hsc).1, (hfinish _ hsc).2]
          exact .eoi hdone hend hrest hnone
        | cons c rest =>
          have hmatch := hwalk.missed
            (by rintro ⟨i, k, hfits, -⟩; exact hnone i k ((candidate_iff hg).mpr hfits))
            (Or.inr (by simp [hrest]))
          have hnext := next_of_none hdone hend hmap hmatch
          have hinvalid := Outcome.invalid hdone hend hrest hnone
          have hskip : (sc.skip (walkEvents sc start)).result
              = .error (.invalidToken (String.singleton c) ⟨sc.position, sc.position.advance c⟩) ∧
              { (sc.skip (walkEvents sc start)).scanner with stats := sc.stats }
                = { sc with rest := rest, position := sc.position.advance c } := by
            simp [Scanner.skip, Scanner.consume, hrest, Position.advanceAll]
          rw [hnext, hskip.1, hskip.2]
          exact hinvalid

/-! ## 5. A scanner -/

/-- A grammar for a scanner: runs of `a`, and a `b` at the end of the input. -/
def sampleDraft : Draft :=
  { stamp := 0
    symbols := #[{ index := 0, name := eoiName, kind := .terminal },
      { index := 1, name := "run", kind := .terminal },
      { index := 2, name := "last", kind := .terminal }]
    states := #[{ name := "initial" }]
    lexicalRules := #[
      { kind := .normal, symbol := 1, regex := (Regex.parse "a+" none).1, states := [0] },
      { kind := .normal, symbol := 2, regex := (Regex.parse "b{eoi}" none).1, states := [0] }] }

theorem sampleDraft_reached : sampleDraft.Reached := by
  have hrun : (Draft.new 0).addTerminal "run" none none
      = .ok (⟨0, 1⟩, { Draft.new 0 with symbols := sampleDraft.symbols.take 2 }) := by
    cbv
  have hlast : { Draft.new 0 with symbols := sampleDraft.symbols.take 2 }.addTerminal "last" none
        none
      = .ok (⟨0, 2⟩, { Draft.new 0 with symbols := sampleDraft.symbols }) := by
    cbv
  have hstate : { Draft.new 0 with symbols := sampleDraft.symbols }.addState "initial" none
      = .ok (⟨0, 0⟩, { sampleDraft with lexicalRules := #[] }) := by
    cbv
  have hruns : { sampleDraft with lexicalRules := #[] }.addLexicalRule .normal ⟨0, 1⟩
      (Regex.parse "a+" none).1 [⟨0, 0⟩] 0 none none
      = .ok (⟨0, 0⟩, { sampleDraft with lexicalRules := sampleDraft.lexicalRules.take 1 }) := by
    cbv
  have hend : { sampleDraft with lexicalRules := sampleDraft.lexicalRules.take 1 }.addLexicalRule
      .normal ⟨0, 2⟩ (Regex.parse "b{eoi}" none).1 [⟨0, 0⟩] 0 none none
      = .ok (⟨0, 1⟩, sampleDraft) := by
    cbv
  have hstates := ((Draft.Reached.new 0).terminal hrun).terminal hlast |>.state hstate
  exact (hstates.lexicalRule (.parse "a+" none) hruns).lexicalRule (.parse "b{eoi}" none) hend

theorem sampleDraft_eoiLast : ∀ r ∈ sampleDraft.freeze.lexicalRules,
    RuleEoiLast (patternTable sampleDraft.freeze).1 r.regex.root := by
  have hruns : (Regex.parse "a+" none).1.root = .repeated ⟨0, 2⟩ (.char ⟨0, 1⟩ 97) 1 none := by
    cbv
  have hend : (Regex.parse "b{eoi}" none).1.root
      = .seq ⟨0, 6⟩ ([.char ⟨0, 1⟩ 98] ++ [.eoi ⟨1, 6⟩]) := by
    cbv
  have hfree : ∀ {table : PatternTable} {t : Regex.Tree}, (∀ r, .eoi r ∉ t.preorder) →
      (∀ r name, .expand r name ∉ t.preorder) → ¬ UsesEoi table t := by
    rintro table t heoi hexpand (h | ⟨h, -, -⟩)
    · exact heoi _ h
    · exact hexpand _ _ h
  intro r hr
  have hroot : r.regex = (Regex.parse "a+" none).1 ∨ r.regex = (Regex.parse "b{eoi}" none).1 := by
    simp only [sampleDraft, Draft.freeze, Array.mem_map] at hr
    obtain ⟨r', hr', rfl⟩ := hr
    simp only [List.mem_toArray, List.mem_cons, List.not_mem_nil, or_false] at hr'
    rcases hr' with rfl | rfl
    · exact Or.inl rfl
    · exact Or.inr rfl
  rcases hroot with h | h
  · rw [h, hruns]
    exact .plain (.free (hfree (by simp [Regex.Tree.preorder]) (by simp [Regex.Tree.preorder])))
  · rw [h, hend]
    refine .plain (.seq ?_ (.eoi _))
    intro t ht
    obtain rfl := List.mem_singleton.mp ht
    exact hfree (by simp [Regex.Tree.preorder]) (by simp [Regex.Tree.preorder])

/-- The sample scanner before a text. -/
def sampleScanner (text : String) : Scanner := .new (build sampleDraft.freeze {}).1 text

theorem next_outcome_sample : sampleDraft.freeze.Frozen ∧
    Outcome sampleDraft.freeze {} (sampleScanner "aab") (sampleScanner "aab").next.result
      { (sampleScanner "aab").next.scanner with stats := (sampleScanner "aab").stats } :=
  ⟨⟨sampleDraft, sampleDraft_reached, rfl⟩,
    next_outcome ⟨sampleDraft, sampleDraft_reached, rfl⟩ {} sampleDraft_eoiLast rfl (by decide)⟩

end GrammarTables.Scan
