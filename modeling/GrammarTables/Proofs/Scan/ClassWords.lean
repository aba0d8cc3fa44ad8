import GrammarTables.Proofs.Lexical.Instances
import GrammarTables.Proofs.Scan.ActiveRules
import GrammarTables.Proofs.Scan.Overlap
/-
# Words of class rules are scanned as themselves

A rule that refines a class rule takes its word out of the automaton, and the table of words gives
it back.  A word is in the table exactly if the class rule wins it in every lexer state of the rule,
and it belongs to the first such rule (`class_words_exact`).  What is checked while the tables are
built is what happens while scanning: in each of these lexer states, a scanner that has just the
word before it returns one token, with the action of the rule.  Neither lookaheads nor longer texts
come between, since the word is followed by the end of the input.
-/

namespace GrammarTables.Scan

open Lexical

/-! ## 1. Rules that refine class rules -/

/-- The rule of index `i` is valid and refines the compiled class rule `c`; its regular expression
has the text as its constant text, and in each of its lexer states the class rule wins the text. -/
def Refines (g : Grammar) (options : LexOptions) (i c : Nat) (text : String) : Prop :=
  ∃ r, g.lexicalRules[i]? = some r ∧ r.regex.isValid = true ∧ r.classRule = some c ∧
    Compiled g options c ∧ r.regex.constant? = some text.toList ∧ text ≠ "" ∧
    ∀ state ∈ r.states, BestBody g options state c (text.toList.map Char.toNat)

theorem roleOf_eq_word {g : Grammar} {table : PatternTable} {limit c : Nat} {r : LexicalRule}
    {word : List Char} (hclass : r.classRule = some c) :
    (roleOf g table limit r).1 = .word word ↔
      r.regex.isValid = true ∧ r.regex.constant? = some word := by
  unfold roleOf
  simp only [hclass, Option.isNone_some, Bool.and_false, Bool.false_eq_true, if_false]
  cases r.regex.isValid with
  | false => simp
  | true =>
    simp only [Bool.not_true, Bool.false_eq_true, if_false, true_and]
    cases r.regex.constant? <;> simp

theorem le_endMark_of_mem {word : List Char} : ∀ c ∈ word.map Char.toNat, c ≤ endMark := by
  intro c hc
  obtain ⟨x, -, rfl⟩ := List.mem_map.mp hc
  exact Nat.le_of_lt (toNat_lt_endMark x)

theorem run_text_iff {m : Matcher} {classOf : Nat → Nat} {start n : Nat} {word : List Char} :
    m.dfa.run start (word.map fun c => classOf c.toNat) = some n ↔
      m.At classOf start (word.map Char.toNat) n := by
  rw [Matcher.At, List.map_map]
  rfl

theorem matchedBy_iff_forall {p : Plan} {c : Nat} {states : List Nat} {word : List Char} :
    matchedBy p c states word = true ↔ ∀ q ∈ states, matchedBy p c [q] word = true := by
  simp only [matchedBy, List.all_eq_true, List.mem_singleton, forall_eq]

section Words

variable {g : Grammar} (hg : g.Frozen) {options : LexOptions}

include hg in
/-- The class rule is the best that the automaton accepts after the word exactly if it wins the
word. -/
theorem matchedBy_state_iff {c q : Nat} {word : List Char} (hq : q < g.states.size) :
    matchedBy (plan g options.maxRepeat).1 c [q] word = true ↔
      word ≠ [] ∧ BestBody g options q c (word.map Char.toNat) := by
  obtain ⟨start, hstart, hreader⟩ := exists_reader g options hg hq
  rw [plan_eq]
  simp only [matchedBy, List.all_cons, List.all_nil, Bool.and_true, hstart, Option.bind_some]
  cases hrun : (planFor g (rolesOf g options.maxRepeat)).matcher.dfa.run start
      (word.map fun ch => (planFor g (rolesOf g options.maxRepeat)).alphabet.classOf ch.toNat) with
  | none =>
    simp only [Bool.false_eq_true, false_iff]
    rintro ⟨-, hbest⟩
    -- a word that is matched is read
    obtain ⟨n, hn⟩ := hreader.exists_at (v := []) le_endMark_of_mem
      (by rw [List.append_nil]; exact (bodyMatches_iff hg).mp hbest.1)
    rw [run_text_iff.mpr hn] at hrun
    cases hrun
  | some n =>
    simp only [decide_eq_true_eq]
    by_cases hne : word = []
    · subst hne
      obtain rfl := Matcher.at_nil.mp (run_text_iff.mp hrun)
      simp [hreader.accepts_start]
    · rw [bestBody_iff_head? hg (by simpa using hne) le_endMark_of_mem hreader
        (run_text_iff.mp hrun)]
      simp [hne]

/-- The rules with their roles. -/
theorem getElem?_zip_roles {i : Nat} {r : LexicalRule} {role : Role} :
    (g.lexicalRules.toList.zip (plan g options.maxRepeat).1.roles)[i]? = some (r, role) ↔
      g.lexicalRules[i]? = some r ∧
        (roleOf g (patternTable g).1 options.maxRepeat r).1 = role := by
  have hroles : (plan g options.maxRepeat).1.roles = rolesOf g options.maxRepeat := by
    rw [plan_eq]
    rfl
  rw [hroles, List.getElem?_zip_eq_some, Array.getElem?_toList, rolesOf, List.getElem?_map,
    Array.getElem?_toList]
  constructor
  · rintro ⟨hr, hrole⟩
    rw [hr, Option.map_some, Option.some.injEq] at hrole
    exact ⟨hr, hrole⟩
  · rintro ⟨hr, rfl⟩
    exact ⟨hr, by rw [hr]; rfl⟩

include hg in
/-- **A rule asks for its word** exactly if it refines the class rule. -/
theorem asks_iff {i c : Nat} {text : String} :
    Asks (plan g options.maxRepeat).1
      (g.lexicalRules.toList.zip (plan g options.maxRepeat).1.roles) i c text ↔
    Refines g options i c text := by
  have hlexical : ∀ r : LexicalRule, g.lexicalRules[i]? = some r →
      r.states ≠ [] ∧ ∀ q ∈ r.states, q < g.states.size := by
    intro r hr
    obtain ⟨d, hd, rfl⟩ := hg
    have hsound := hd.closed.lexicalRules i r hr
    exact ⟨hsound.nonempty, hsound.states⟩
  constructor
  · rintro ⟨r, word, hitem, hclass, rfl, hkept, hmatched⟩
    obtain ⟨hr, hrole⟩ := getElem?_zip_roles.mp hitem
    obtain ⟨hvalid, hconstant⟩ := (roleOf_eq_word hclass).mp hrole
    obtain ⟨hne, hstates⟩ := hlexical r hr
    have hwins : ∀ q ∈ r.states, word ≠ [] ∧ BestBody g options q c (word.map Char.toNat) :=
      fun q hq => (matchedBy_state_iff hg (hstates q hq)).mp (matchedBy_iff_forall.mp hmatched q hq)
    obtain ⟨q, hq⟩ := List.exists_mem_of_ne_nil _ hne
    refine ⟨r, hr, hvalid, hclass, compiled_iff.mp hkept, ?_, ?_, ?_⟩
    · rw [String.toList_ofList, hconstant]
    · exact fun hempty => (hwins q hq).1 (by simpa using congrArg String.toList hempty)
    · rw [String.toList_ofList]
      exact fun q hq => (hwins q hq).2
  · rintro ⟨r, hr, hvalid, hclass, hcompiled, hconstant, hne, hwins⟩
    obtain ⟨-, hstates⟩ := hlexical r hr
    refine ⟨r, text.toList, getElem?_zip_roles.mpr ⟨hr, (roleOf_eq_word hclass).mpr
      ⟨hvalid, hconstant⟩⟩, hclass, String.ofList_toList.symm, compiled_iff.mpr hcompiled,
      matchedBy_iff_forall.mpr fun q hq => (matchedBy_state_iff hg (hstates q hq)).mpr ⟨?_, ?_⟩⟩
    · exact fun hempty => hne (String.toList_eq_nil_iff.mp hempty)
    · exact hwins q hq

end Words

/-! ## 2. The table of words -/

section Table

variable {g : Grammar} (hg : g.Frozen) {options : LexOptions}

theorem build_instances (g : Grammar) (options : LexOptions) : (build g options).1.instances
    = instanceGroups (takenWords g (plan g options.maxRepeat).1).1 := rfl

include hg in
/-- **The table of words**: a word belongs to the first rule that refines the class rule by it. -/
theorem build_instance?_iff {action owner : Nat} {text : String} :
    (build g options).1.instance? action text = some owner ↔
      ∃ c i, action = c + 1 ∧ owner = i + 1 ∧ Refines g options i c text ∧
        ∀ j < i, ¬ Refines g options j c text := by
  rw [instance?_iff (build_instances g options) (oneOwner_takenWords g _)]
  constructor
  · rintro ⟨w, hw, rfl, rfl, rfl⟩
    obtain ⟨hasks, hfirst⟩ := mem_takenWords_iff.mp hw
    exact ⟨w.classRule, w.owner, rfl, rfl, (asks_iff hg).mp hasks,
      fun j hj h => hfirst j hj ((asks_iff hg).mpr h)⟩
  · rintro ⟨c, i, rfl, rfl, hrefines, hfirst⟩
    exact ⟨⟨c, text, i⟩, mem_takenWords_iff.mpr ⟨(asks_iff hg).mpr hrefines,
      fun j hj h => hfirst j hj ((asks_iff hg).mp h)⟩, rfl, rfl, rfl⟩

end Table

/-! ## 3. Scanning a word -/

/-- A scanner in a lexer state, with a text before it, returns the whole text as one token of an
action, and nothing is left. -/
def ScansAs (table : LexTable) (state : Nat) (text : String) (action : Nat) : Prop :=
  ∃ sc event token, (Scanner.new table text).setState state = .ok (sc, event) ∧
    sc.next.result = .ok (some token) ∧ token.action = action ∧ token.text = text ∧
    token.span = ⟨.start, Position.start.advanceAll text.toList⟩ ∧ sc.next.scanner.rest = []

/-- A match of the whole text becomes a token of the rule that the word belongs to. -/
theorem scansAs_of_match {table : LexTable} {state start c owner : Nat} {text : String} {m : Match}
    (hmap : table.stateMap[state]? = some start)
    (hmatch : (walk table start 0 0 [] text.toList).match? = some m) (haction : m.action = c + 1)
    (hlength : m.length = text.toList.length)
    (howner : table.instance? (c + 1) text = some owner) : ScansAs table state text owner := by
  have hset : (Scanner.new table text).setState state
      = .ok ({ Scanner.new table text with state }, .switched 0 state) :=
    if_pos (Array.getElem?_eq_some_iff.mp hmap).1
  obtain ⟨sc', hsc, hnext⟩ := @next_of_match
    { Scanner.new table text with state } start m rfl rfl hmap hmatch
  rw [if_neg (by omega)] at hnext
  have htable : sc'.table = table := congrArg Scanner.table hsc
  have hrest : sc'.rest = text.toList := congrArg Scanner.rest hsc
  have hposition : sc'.position = .start := congrArg Scanner.position hsc
  have htake : sc'.rest.take m.length = text.toList := by
    rw [hrest, hlength, List.take_length]
  have hdrop : sc'.rest.drop m.length = [] := by
    rw [hrest, hlength, List.drop_length]
  refine ⟨_, _, _, hset, by rw [hnext]; rfl, ?_, ?_, ?_, by rw [hnext]; exact hdrop⟩
  · simp only [htake, htable, haction, String.ofList_toList, howner, Option.getD_some]
  · simp only [htake, String.ofList_toList]
  · simp only [htake, hposition]

section Scan

variable {g : Grammar} (hg : g.Frozen) {options : LexOptions}
  (heoi : ∀ r ∈ g.lexicalRules, ¬ UsesEoi (patternTable g).1 r.regex.root)

include hg heoi in
/-- **A rule that wins a text is the match of the text**, since the end of the input follows. -/
theorem match_of_bestBody {q c : Nat} {text : List Char} (hne : text ≠ [])
    (hbest : BestBody g options q c (text.map Char.toNat)) :
    ∃ start, (build g options).1.stateMap[q]? = some start ∧
      ∃ m, (walk (build g options).1 start 0 0 [] text).match? = some m ∧
        m.action = c + 1 ∧ m.length = text.length := by
  obtain ⟨r, ⟨hr, hactive, -⟩, -⟩ := id hbest.1
  have hq := state_lt_of_active hg (Array.mem_of_getElem? hr) hactive
  have hfree : ∀ e, .matched e ∈ rolesOf g options.maxRepeat → (Expr.seq e.body).EoiFree :=
    fun e he => eoiFree_of_mem_rolesOf hg heoi he
  obtain ⟨start, hstart, hrecognizer⟩ := planFor_recognizer (fun e he => .free (hfree e he))
    (fun e he => isUnicode_of_mem_rolesOf hg he) hq
  have hne' : text.map Char.toNat ≠ [] := by simpa using hne
  have hfits : ∀ {i : Nat}, Fits (MatchesWord g (rolesOf g options.maxRepeat) q)
      (MustNotFollow (rolesOf g options.maxRepeat)) (codes text) i (text.map Char.toNat).length ↔
        BodyMatches g options q i (text.map Char.toNat) := by
    intro i
    rw [bodyMatches_iff hg, codes, fits_here hne',
      and_iff_left (not_ahead_endMark hrecognizer.toReader i)]
  obtain ⟨i, k, m, hbestMatch, -, hmatch, haction, hlength, -⟩ :=
    (walk_walksTo hrecognizer (build_represents g options) text 0 []
      (Matcher.at_nil.mpr rfl) (by simp)).found ⟨c, _, hfits.mpr hbest.1, Nat.zero_le _⟩
  obtain ⟨hk, hic⟩ : (text.map Char.toNat).length = k ∧ i = c := by
    rcases hbestMatch.2 c _ (hfits.mpr hbest.1) with hlonger | ⟨rfl, hwins⟩
    · -- nothing longer fits, since that would read the end of the input
      obtain ⟨v, rule, e, -, he, -, hword⟩ := hbestMatch.1.word_of_lt hlonger
      exact absurd (by simp) ((hfree e (List.mem_of_getElem? he)).not_mem _ hword)
    · rcases hwins with heq | hbefore
      · exact ⟨rfl, heq.symm⟩
      · exact ⟨rfl, (hbest.2 i (hfits.mp hbestMatch.1)).resolve_right fun hout =>
          not_ranksBefore_of_outranks hout hbefore⟩
  refine ⟨start, ?_, m, hmatch, by rw [haction, hic], ?_⟩
  · rw [build_stateMap, List.getElem?_toArray, hstart]
  · simpa [← hk] using hlength

include hg heoi in
/-- **A word of a class rule is scanned as the rule that it belongs to**, wherever the class rule
wins it. -/
theorem scansAs_of_bestBody {q c owner : Nat} {text : String} (hne : text ≠ "")
    (hbest : BestBody g options q c (text.toList.map Char.toNat))
    (howner : (build g options).1.instance? (c + 1) text = some owner) :
    ScansAs (build g options).1 q text owner := by
  obtain ⟨start, hmap, m, hmatch, haction, hlength⟩ :=
    match_of_bestBody hg heoi (fun h => hne (String.toList_eq_nil_iff.mp h)) hbest
  exact scansAs_of_match hmap hmatch haction hlength howner

end Scan

/-! ## 4. What the table of words stands for -/

/-- **Words of class rules are scanned as themselves.**  Each entry of the tables is what a scanner
returns for the word in the lexer states of its rule; the entries are the words of the rules that
refine class rules, each with the first rule that does; and they stand in the order of their texts,
so that halving them finds every one. -/
theorem class_words_exact {g : Grammar} (hg : g.Frozen) (options : LexOptions)
    (heoi : ∀ r ∈ g.lexicalRules, ¬ UsesEoi (patternTable g).1 r.regex.root) :
    (∀ group ∈ (build g options).1.instances, ∀ entry ∈ group.entries,
      ∃ i r, entry.2 = i + 1 ∧ g.lexicalRules[i]? = some r ∧
        ∀ state ∈ r.states, ScansAs (build g options).1 state entry.1 entry.2) ∧
    (∀ action text owner, (build g options).1.instance? action text = some owner ↔
      ∃ c i, action = c + 1 ∧ owner = i + 1 ∧ Refines g options i c text ∧
        ∀ j < i, ¬ Refines g options j c text) ∧
    (∀ group ∈ (build g options).1.instances, group.entries.Pairwise fun a b => a.1 < b.1) ∧
    (∀ group ∈ (build g options).1.instances, ∀ entry ∈ group.entries,
      (build g options).1.searched? group.classAction entry.1 = some entry.2) ∧
    ∀ action text,
      (build g options).1.searched? action text = (build g options).1.instance? action text := by
  have htable := build_instances g options
  have hone := oneOwner_takenWords g (plan g options.maxRepeat).1
  refine ⟨fun group hgroup entry hentry => ?_, fun action text owner => build_instance?_iff hg,
    fun group hgroup => pairwise_entries (htable ▸ hgroup), fun group hgroup entry hentry => ?_,
    searched?_eq htable⟩
  · have howner := instance?_of_mem htable hone hgroup hentry
    obtain ⟨c, i, hc, hi, hrefines, -⟩ := (build_instance?_iff hg).mp howner
    obtain ⟨r, hr, -, -, -, -, hne, hwins⟩ := hrefines
    rw [hc] at howner
    exact ⟨i, r, hi, hr, fun state hstate =>
      scansAs_of_bestBody hg heoi hne (hwins state hstate) howner⟩
  · rw [searched?_eq htable]
    exact instance?_of_mem htable hone hgroup hentry

theorem keywordDraft_not_usesEoi : ∀ r ∈ keywordDraft.freeze.lexicalRules,
    ¬ UsesEoi (patternTable keywordDraft.freeze).1 r.regex.root := by
  have hplain : ∀ r ∈ keywordDraft.freeze.lexicalRules.toList, ∀ t ∈ r.regex.root.preorder,
      isPlain t = true := by
    decide +kernel
  exact fun r hr => not_usesEoi_of_plain (hplain r (Array.mem_toList_iff.mpr hr))

/-- The keyword is taken from the names, and is scanned as a keyword. -/
theorem class_words_keyword : keywordDraft.freeze.Frozen ∧
    (∀ r ∈ keywordDraft.freeze.lexicalRules,
      ¬ UsesEoi (patternTable keywordDraft.freeze).1 r.regex.root) ∧
    Refines keywordDraft.freeze {} 1 0 "if" ∧
    ScansAs (build keywordDraft.freeze {}).1 0 "if" 2 := by
  obtain ⟨hscans, howners, -⟩ :=
    class_words_exact keywordDraft_frozen {} keywordDraft_not_usesEoi
  have hinstances : (build keywordDraft.freeze {}).1.instances = [⟨1, [("if", 2)]⟩] := by
    decide +kernel
  have howner : (build keywordDraft.freeze {}).1.instance? 1 "if" = some 2 := by decide +kernel
  have hstates : keywordDraft.freeze.lexicalRules[1]?.map (·.states) = some [0] := by
    decide +kernel
  refine ⟨keywordDraft_frozen, keywordDraft_not_usesEoi, ?_, ?_⟩
  · obtain ⟨c, i, hc, hi, hrefines, -⟩ := (howners 1 "if" 2).mp howner
    obtain rfl : c = 0 := by omega
    obtain rfl : i = 1 := by omega
    exact hrefines
  · obtain ⟨i, r, hi, hr, hscan⟩ := hscans ⟨1, [("if", 2)]⟩ (by simp [hinstances]) ("if", 2)
      (by simp)
    obtain rfl : i = 1 := by simpa using hi.symm
    rw [hr] at hstates
    exact hscan 0 (by simp [show r.states = [0] from Option.some.inj hstates])

end GrammarTables.Scan
