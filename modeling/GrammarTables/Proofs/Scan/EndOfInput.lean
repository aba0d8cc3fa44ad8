import GrammarTables.Proofs.Scan.ActiveRules
/-
# The end of the input

A rule may read the end of the input anywhere.  The scanner reads it once and takes a cell that
would go on after it for a failure, while the tables take it for a letter that can be read again:
a rule that can read it twice loses its matches (`match_lost_after_end`), and one that needs more
after it leaves nothing to report at the end of the text (`end_not_reported`).

Where no active rule can begin with the text and two ends of the input, a text is invalid only if
no active rule matches it (`not_candidate_of_invalid`).  Where in addition a rule that can begin
with the end of the input leaves one that matches it (`EndsClean`), the end of the input is
reported exactly once, whatever is called in whatever order (`run_ends_once`).
-/

namespace GrammarTables.Scan

open Lexical

/-! ## 1. What rules can begin with -/

/-- A rule that was compiled and is active in a lexer state can begin by reading a text. -/
def BeginsWith (g : Grammar) (options : LexOptions) (state : Nat) (w : List Nat) : Prop :=
  ∃ i r, Competes g options state i r ∧ Begins (patternTable g).1 {} r.regex.root w

section Tables

variable {g : Grammar} (hg : g.Frozen) {options : LexOptions} {q start : Nat}
  (hmap : (build g options).1.stateMap[q]? = some start)

include hg hmap in
/-- What the automaton reads from the start of a lexer state is what a rule begins with. -/
theorem beginsWith_of_at {w : List Nat} {n : Nat}
    (hat : (planFor g (rolesOf g options.maxRepeat)).matcher.At
      (planFor g (rolesOf g options.maxRepeat)).alphabet.classOf start w n)
    (hw : ∀ c ∈ w, c ≤ endMark) (hne : w ≠ []) : BeginsWith g options q w := by
  obtain ⟨hstart, -⟩ := build_reader g options hg hmap
  obtain ⟨i, r, e, hr, hrole, hstate, hbegun⟩ := planFor_begun hstart hat hw hne
  obtain ⟨r', hr', he⟩ := getElem?_rolesOf.mp hrole
  obtain rfl : r = r' := Option.some.inj (hr.symm.trans hr')
  have hmeaning := ruleMeaning_of_roleOf hg (Array.mem_of_getElem? hr) he
  exact ⟨i, r, ⟨hr, hstate, e, he⟩, hmeaning.begins hbegun⟩

theorem codes_le (text : List Char) : ∀ c ∈ codes text, c ≤ endMark := by
  intro c hc
  rcases List.mem_append.mp hc with hc | hc
  · obtain ⟨x, -, rfl⟩ := List.mem_map.mp hc
    exact Nat.le_of_lt (toNat_lt_endMark x)
  · exact Nat.le_of_eq (List.mem_singleton.mp hc)

include hg hmap in
/-- **Where no rule begins with the text and two ends, a match is found if there is one.** -/
theorem match_ne_none_of_candidate {text : List Char}
    (honce : ¬ BeginsWith g options q (codes text ++ [endMark])) {i k : Nat}
    (hcandidate : Candidate g options q text i k) :
    (walk (build g options).1 start 0 0 [] text).match? ≠ none := by
  obtain ⟨-, hreader⟩ := build_reader g options hg hmap
  have hreads : ReadsOnce (planFor g (rolesOf g options.maxRepeat)).matcher
      (planFor g (rolesOf g options.maxRepeat)).alphabet.classOf start (codes text) :=
    fun n hat => honce (beginsWith_of_at hg hmap hat (le_endMark_snoc (codes_le text)) (by simp))
  have hfinds := walk_finds hreader (build_represents g options) text 0 []
    (Matcher.at_nil.mpr rfl) (by simp) hreads
  obtain ⟨_, _, m, -, -, hmatch, -⟩ :=
    hfinds.found ⟨i, k, (candidate_iff hg).mp hcandidate, Nat.zero_le _⟩
  intro hnone
  exact nomatch hmatch.symm.trans hnone

end Tables

/-! ## 2. Invalid texts -/

/-- A text is invalid where the walk matches nothing. -/
theorem match_eq_none_of_invalid {sc : Scanner} {text : String} {span : Span}
    (h : sc.next.result = .error (.invalidToken text span)) :
    ∃ start, sc.table.stateMap[sc.state]? = some start ∧
      (walk sc.table start 0 0 [] sc.rest).match? = none := by
  have hcalled := sc.called_next
  generalize sc.next = scanned at h hcalled
  cases hcalled with
  | stopped | afterEnd | noStart | finish | produce => cases h
  | skip _ _ hmap hmatch => exact ⟨_, hmap, hmatch⟩

/-- **A text is invalid only if no active rule matches it**, as long as none can begin with the text
and two ends of the input. -/
theorem not_candidate_of_invalid {g : Grammar} (hg : g.Frozen) (options : LexOptions)
    {sc : Scanner} (htable : sc.table = (build g options).1)
    (honce : ¬ BeginsWith g options sc.state (codes sc.rest ++ [endMark])) {text : String}
    {span : Span} (hinvalid : sc.next.result = .error (.invalidToken text span)) :
    ∀ i k, ¬ Candidate g options sc.state sc.rest i k := by
  intro i k hcandidate
  obtain ⟨start, hmap, hmatch⟩ := match_eq_none_of_invalid hinvalid
  rw [htable] at hmap hmatch
  exact match_ne_none_of_candidate hg hmap honce hcandidate hmatch

/-! ## 3. The last answers -/

/-- In a lexer state, the end of the input is left alone or matched: if a rule can begin with it,
some rule matches it, and none can begin with two. -/
def EndsClean (g : Grammar) (options : LexOptions) (state : Nat) : Prop :=
  BeginsWith g options state [endMark] →
    (∃ i, Candidate g options state [] i 1) ∧ ¬ BeginsWith g options state [endMark, endMark]

/-- Where the end of the input is left alone or matched, a match is found at the end. -/
theorem match_ne_none_of_endsClean {g : Grammar} (hg : g.Frozen) {options : LexOptions}
    {q start : Nat} (hmap : (build g options).1.stateMap[q]? = some start)
    (hclean : EndsClean g options q) :
    (walk (build g options).1 start 0 0 [] []).match? ≠ none := by
  obtain ⟨-, hreader⟩ := build_reader g options hg hmap
  cases hstep : (planFor g (rolesOf g options.maxRepeat)).matcher.dfa.step start
      ((planFor g (rolesOf g options.maxRepeat)).alphabet.classOf endMark) with
  | none =>
    rw [walk_ended hreader (build_represents g options) 0 [] hstep]
    exact Option.some_ne_none _
  | some n =>
    have hat := Matcher.at_snoc.mpr ⟨start, Matcher.at_nil.mpr rfl, hstep⟩
    obtain ⟨⟨i, hcandidate⟩, honce⟩ :=
      hclean (beginsWith_of_at hg hmap hat (by simp) (by simp))
    exact match_ne_none_of_candidate hg hmap honce hcandidate

/-- Whether an answer is one of the last: the end of the input, or that nothing is left. -/
def isLast : Answer → Bool
  | .ok (some token) => token.isEoi
  | .ok none => true
  | .error _ => false

section Calls

variable {g : Grammar} (hg : g.Frozen) {options : LexOptions} {sc : Scanner}
  (htable : sc.table = (build g options).1)

include htable in
theorem finish_eq {sc' : Scanner} (events : List ScanEvent) (hsc : sc'.Agrees sc) :
    (sc'.finish events).result = .ok (some (eoiToken g sc.position)) := by
  rw [eoiToken, show g.eoi = actionSymbol g 0 from rfl, ← build_symbolOf g options, ← htable, ← hsc]
  rfl

include htable in
/-- A match of a rule is not the end of the input. -/
theorem isLast_produce {sc' : Scanner} {m : Match} (events : List ScanEvent)
    (hsc : sc'.Agrees sc) (haction : m.action ≠ 0) :
    isLast (sc'.produce m events).result = false := by
  have htable' : sc'.table = (build g options).1 := by
    rw [← htable, ← hsc]
  simp only [isLast, Scanner.produce, Token.isEoi, decide_eq_false_iff_not, htable']
  cases howner : (build g options).1.instance? m.action
      (String.ofList (sc'.rest.take m.length)) with
  | none => exact haction
  | some owner =>
    obtain ⟨w, -, -, -, rfl⟩ := instance?_eq_some rfl howner
    exact Nat.succ_ne_zero _

include hg htable in
/-- **What a call answers before the last answers**: the end of the input where nothing is left, or
an answer that is not one of the last. -/
theorem next_of_open (hready : sc.Ready) (hdone : sc.done = false)
    (hclean : EndsClean g options sc.state) :
    isLast sc.next.result = false ∧ sc.next.scanner.done = false ∨
      sc.rest = [] ∧ sc.next.result = .ok (some (eoiToken g sc.position)) ∧
        sc.next.scanner.done = true := by
  have hcalled := sc.called_next
  generalize sc.next = scanned at hcalled ⊢
  cases hcalled with
  | stopped hdone' =>
    rw [hdone] at hdone'
    cases hdone'
  | afterEnd _ hend => exact Or.inr ⟨hready.atEnd hend, finish_eq htable [] rfl, rfl⟩
  | noStart _ _ hmap =>
    rw [Array.getElem?_eq_getElem hready.state_lt] at hmap
    cases hmap
  | finish _ _ hmap hmatch hsc haction =>
    refine Or.inr ⟨?_, finish_eq htable _ hsc, rfl⟩
    rw [htable] at hmap hmatch
    obtain ⟨-, hreader⟩ := build_reader g options hg hmap
    rcases walk_fits hreader (build_represents g options) sc.rest 0 (Matcher.at_nil.mpr rfl)
      (by simp) (fun x hx => absurd hx List.not_mem_nil) hmatch with
      ⟨r, k, -, his⟩ | ⟨-, hrest, -⟩
    · rw [his.1] at haction
      cases haction
    · exact hrest
  | produce _ _ _ _ hsc haction =>
    refine Or.inl ⟨isLast_produce htable _ hsc haction, ?_⟩
    rw [← hsc] at hdone
    exact hdone
  | skip _ _ hmap hmatch =>
    cases hrest : sc.rest with
    | nil =>
      rw [htable] at hmap hmatch
      rw [hrest] at hmatch
      exact absurd hmatch (match_ne_none_of_endsClean hg hmap hclean)
    | cons c rest =>
      simp only [Scanner.skip, hrest]
      exact Or.inl ⟨rfl, hdone⟩

end Calls

/-! ## 4. Runs -/

/-- The scanner of a run is in the first lexer state or in one that was called for. -/
theorem Run.state_of (table : LexTable) (text : String) (calls : List Call) :
    (of table text calls).scanner.state = 0 ∨
      .setState (of table text calls).scanner.state ∈ calls := by
  induction calls using List.reverseRecOn with
  | nil => exact Or.inl rfl
  | append_singleton calls c ih =>
    rw [of_snoc]
    cases c with
    | next =>
      simp only [call, (Scanner.keeps_next _).2, List.mem_append, List.mem_singleton]
      exact ih.imp_right Or.inl
    | setState state =>
      rw [call_setState]
      split
      · exact Or.inr (by simp)
      · exact ih.imp_right fun h => by simp [h]

/-- How far the answers of a scanner have come: none is one of the last yet, or the end of the input
was reported at the end of the text and there was nothing after it. -/
def Run.Closes (g : Grammar) (text : List Char) (r : Run) : Prop :=
  ∃ before, (∀ a ∈ before, isLast a = false) ∧
    (r.scanner.done = false ∧ r.answers = before ∨ r.scanner.done = true ∧
      ∃ n, r.answers = before ++ .ok (some (eoiToken g (.after text))) :: .replicate n (.ok none))

/-- One more call for a token. -/
theorem Run.Closes.next {g : Grammar} (hg : g.Frozen) {options : LexOptions} {text : List Char}
    {r : Run} (htable : r.scanner.table = (build g options).1) (hproper : r.Proper text)
    (hclean : EndsClean g options r.scanner.state) (h : r.Closes g text) :
    (r.call .next).Closes g text := by
  obtain ⟨before, hbefore, ⟨hdone, hanswers⟩ | ⟨hdone, n, hanswers⟩⟩ := h
  · rcases next_of_open hg htable hproper.ready hdone hclean with
      ⟨hlast, hdone'⟩ | ⟨hrest, hresult, hdone'⟩
    · refine ⟨before ++ [r.scanner.next.result], ?_, Or.inl ⟨hdone', by rw [call, hanswers]⟩⟩
      exact List.forall_mem_append.mpr ⟨hbefore, List.forall_mem_singleton.mpr hlast⟩
    · -- everything is covered, so the end of the input stands behind the text
      have hcovers := hproper.accounted.covers
      rw [hrest, List.append_nil] at hcovers
      refine ⟨before, hbefore, Or.inr ⟨hdone', 0, ?_⟩⟩
      rw [call, hanswers, hresult, hproper.accounted.position, hcovers]
      rfl
  · have hnext : r.scanner.next = ⟨.ok none, r.scanner, []⟩ := by simp [Scanner.next, hdone]
    refine ⟨before, hbefore, Or.inr ⟨by rw [call, hnext]; exact hdone, n + 1, ?_⟩⟩
    rw [call, hanswers, hnext, List.replicate_succ', List.append_assoc, List.cons_append]

theorem Run.closes_of {g : Grammar} (hg : g.Frozen) (hstates : 0 < g.states.size)
    (options : LexOptions) (text : String) (calls : List Call)
    (hclean : ∀ q, q = 0 ∨ .setState q ∈ calls → EndsClean g options q) :
    (of (build g options).1 text calls).Closes g text.toList := by
  induction calls using List.reverseRecOn with
  | nil => exact ⟨[], by simp, Or.inl ⟨rfl, rfl⟩⟩
  | append_singleton calls c ih =>
    have hcloses := ih fun q hq => hclean q (hq.imp_right fun h => by simp [h])
    rw [of_snoc]
    cases c with
    | next =>
      refine hcloses.next hg (table_of _ _ _) ?_ ?_
      · exact proper_of (build_reliable g options) (lt_size_stateMap g options hstates) text calls
      · exact hclean _ ((state_of _ _ _).imp_right fun h => by simp [h])
    | setState state =>
      rw [call_setState]
      split
      · exact hcloses
      · exact hcloses

/-- **The end of the input is reported exactly once**, whatever is called in whatever order: as long
as tokens come, no answer is one of the last; then the end of the input comes, at the end of the
text, and nothing after it.  Two calls more than the text has characters lead there. -/
theorem run_ends_once {g : Grammar} (hg : g.Frozen) (hstates : 0 < g.states.size)
    (options : LexOptions) (text : String) (calls : List Call)
    (hclean : ∀ q, q = 0 ∨ .setState q ∈ calls → EndsClean g options q) :
    let r := Run.of (build g options).1 text calls
    (∃ before, (∀ a ∈ before, isLast a = false) ∧
      (r.answers = before ∧ r.scanner.next.result ≠ .ok none ∨
        (∃ n, r.answers = before ++ .ok (some (eoiToken g (.after text.toList))) ::
          .replicate n (.ok none)) ∧ r.scanner.next.result = .ok none)) ∧
      (text.length + 2 ≤ calls.count .next → r.scanner.next.result = .ok none) := by
  intro r
  have hproper : r.Proper text.toList :=
    Run.proper_of (build_reliable g options) (lt_size_stateMap g options hstates) text calls
  have hnone : r.scanner.done = true → r.scanner.next.result = .ok none := by
    intro hdone
    simp [Scanner.next, hdone]
  constructor
  · obtain ⟨before, hbefore, ⟨hdone, hanswers⟩ | ⟨hdone, hanswers⟩⟩ :=
      Run.closes_of hg hstates options text calls hclean
    · refine ⟨before, hbefore, Or.inl ⟨hanswers, ?_⟩⟩
      rcases hproper.ready.next.2 with ⟨hdone', -⟩ | ⟨u, hreads⟩
      · rw [hdone] at hdone'
        cases hdone'
      · intro hresult
        have hpiece := hreads.piece
        rw [hresult] at hpiece
        cases hpiece
    · exact ⟨before, hbefore, Or.inr ⟨hanswers, hnone hdone⟩⟩
  · intro hcalls
    exact hnone (hproper.done (by rwa [String.length_toList, Run.length_answers]))

/-! ## 5. Rules that read the end of the input -/

/-- The rules of the grammar below. -/
def endRules : List LexicalRule :=
  [{ kind := .normal, symbol := 1, regex := (Regex.parse "x*{eoi}" none).1, states := [0] },
    { kind := .normal, symbol := 1, regex := (Regex.parse "{eoi}x" none).1, states := [1] },
    { kind := .normal, symbol := 1, regex := (Regex.parse "x({eoi})*" none).1, states := [2] }]

/-- A grammar with three lexer states and a rule for each: the end of the input comes last, comes
first, or is repeated. -/
def endDraft : Draft :=
  { stamp := 0
    symbols := #[{ index := 0, name := eoiName, kind := .terminal },
      { index := 1, name := "x", kind := .terminal }]
    states := #[{ name := "last" }, { name := "first" }, { name := "repeated" }]
    lexicalRules := endRules.toArray }

theorem endDraft_reached : endDraft.Reached := by
  have hx : (Draft.new 0).addTerminal "x" none none
      = .ok (⟨0, 1⟩, { Draft.new 0 with symbols := endDraft.symbols }) := by
    cbv
  have hlast : { Draft.new 0 with symbols := endDraft.symbols }.addState "last" none
      = .ok (⟨0, 0⟩, { endDraft with
          states := endDraft.states.take 1, lexicalRules := #[] }) := by
    cbv
  have hfirst : { endDraft with states := endDraft.states.take 1, lexicalRules := #[] }.addState
        "first" none
      = .ok (⟨0, 1⟩, { endDraft with
          states := endDraft.states.take 2, lexicalRules := #[] }) := by
    cbv
  have hrepeated : { endDraft with states := endDraft.states.take 2, lexicalRules := #[] }.addState
        "repeated" none
      = .ok (⟨0, 2⟩, { endDraft with lexicalRules := #[] }) := by
    cbv
  have hrule₀ : { endDraft with lexicalRules := #[] }.addLexicalRule .normal ⟨0, 1⟩
      (Regex.parse "x*{eoi}" none).1 [⟨0, 0⟩] 0 none none
      = .ok (⟨0, 0⟩, { endDraft with lexicalRules := endDraft.lexicalRules.take 1 }) := by
    cbv
  have hrule₁ : { endDraft with lexicalRules := endDraft.lexicalRules.take 1 }.addLexicalRule
      .normal ⟨0, 1⟩ (Regex.parse "{eoi}x" none).1 [⟨0, 1⟩] 0 none none
      = .ok (⟨0, 1⟩, { endDraft with lexicalRules := endDraft.lexicalRules.take 2 }) := by
    cbv
  have hrule₂ : { endDraft with lexicalRules := endDraft.lexicalRules.take 2 }.addLexicalRule
      .normal ⟨0, 1⟩ (Regex.parse "x({eoi})*" none).1 [⟨0, 2⟩] 0 none none
      = .ok (⟨0, 2⟩, endDraft) := by
    cbv
  have hstates := ((Draft.Reached.new 0).terminal hx).state hlast |>.state hfirst |>.state hrepeated
  exact ((hstates.lexicalRule (.parse "x*{eoi}" none) hrule₀).lexicalRule
    (.parse "{eoi}x" none) hrule₁).lexicalRule (.parse "x({eoi})*" none) hrule₂

theorem endDraft_frozen : endDraft.freeze.Frozen := ⟨endDraft, endDraft_reached, rfl⟩

theorem lexicalRules_endDraft : endDraft.freeze.lexicalRules = endRules.toArray := by
  cbv

theorem states_endRules {i : Nat} {r : LexicalRule} (h : endRules[i]? = some r) :
    r.states = [i] := by
  match i, h with
  | 0, h => cases h; rfl
  | 1, h => cases h; rfl
  | 2, h => cases h; rfl
  | _ + 3, h => cases h

theorem exists_matched_endRules {r : LexicalRule} (hr : r ∈ endRules) :
    ∃ e, (roleOf endDraft.freeze (patternTable endDraft.freeze).1 1000 r).1 = .matched e := by
  have hall : ∀ r ∈ endRules, (roleOf endDraft.freeze (patternTable endDraft.freeze).1 1000
      r).1.expr?.isSome = true := by
    decide +kernel
  have hsome := hall r hr
  cases hrole : (roleOf endDraft.freeze (patternTable endDraft.freeze).1 1000 r).1 with
  | matched e => exact ⟨e, rfl⟩
  | dropped => simp [hrole, Role.expr?] at hsome
  | word _ => simp [hrole, Role.expr?] at hsome

/-- Each rule of the grammar competes in its own lexer state. -/
theorem competes_endDraft {q i : Nat} {r : LexicalRule} :
    Competes endDraft.freeze {} q i r ↔ i = q ∧ endRules[i]? = some r := by
  unfold Competes
  rw [lexicalRules_endDraft, List.getElem?_toArray]
  constructor
  · rintro ⟨hr, hstate, -⟩
    rw [states_endRules hr, List.mem_singleton] at hstate
    exact ⟨hstate.symm, hr⟩
  · rintro ⟨rfl, hr⟩
    refine ⟨hr, by rw [states_endRules hr]; exact List.mem_singleton.mpr rfl, ?_⟩
    exact exists_matched_endRules (List.mem_of_getElem? hr)

section Trees

variable {table : PatternTable} {r r' r'' : Regex.TextRange} {c : Nat} {w : List Nat}

theorem matches_no_copies {t : Regex.Tree} : Matches table {} (.repeated r t 0 none) [] := by
  have hnone : Matches table {} (.repeated r t 0 none) ([] : List (List Nat)).flatten :=
    .repeated (Nat.zero_le _) (by simp) (by simp)
  exact hnone

theorem eq_of_matches_char (h : Matches table {} (.char r c) w) : w = [c] := by
  cases h with
  | char hreads =>
    rcases hreads with rfl | ⟨hfold, -⟩
    · rfl
    · cases hfold

/-- A character that may be repeated begins with that character only. -/
theorem eq_of_begins_repeated {min : Nat} {max : Option Nat}
    (h : Begins table {} (.repeated r (.char r' c) min max) w) : ∀ d ∈ w, d = c := by
  have hmatches : ∀ {w : List Nat}, Matches table {} (.char r' c) w → ∀ d ∈ w, d = c := by
    intro w hw
    rw [eq_of_matches_char hw]
    simp
  have hflatten : ∀ {ws : List (List Nat)}, (∀ w ∈ ws, Matches table {} (.char r' c) w) →
      ∀ d ∈ ws.flatten, d = c := by
    intro ws hws d hd
    obtain ⟨u, hu, hd⟩ := List.mem_flatten.mp hd
    exact hmatches (hws u hu) d hd
  cases h with
  | nil => simp
  | all h =>
    cases h with
    | repeated _ _ hws => exact hflatten hws
  | repeated _ hws hv =>
    refine List.forall_mem_append.mpr ⟨hflatten hws, ?_⟩
    cases hv with
    | nil => simp
    | all hv => exact hmatches hv

/-- A sequence that begins with a character. -/
theorem head_of_begins_char {ts : List Regex.Tree} {d : Nat}
    (h : Begins table {} (.seq r (.char r' c :: ts)) (d :: w)) : d = c := by
  generalize hu : d :: w = u at h
  cases h with
  | nil => cases hu
  | all h =>
    cases h with
    | seqCons hc _ =>
      rw [eq_of_matches_char hc] at hu
      exact (List.cons.inj hu).1
  | seqHead hc =>
    cases hc with
    | nil => cases hu
    | all hc =>
      rw [eq_of_matches_char hc] at hu
      exact (List.cons.inj hu).1
  | seqTail hc _ =>
    rw [eq_of_matches_char hc] at hu
    exact (List.cons.inj hu).1

theorem length_le_of_begins_eoi {flags : Flags} (h : Begins table flags (.seq r [.eoi r']) w) :
    w.length ≤ 1 := by
  cases h with
  | nil => exact Nat.zero_le 1
  | all h =>
    cases h with
    | seqCons heoi hnil =>
      cases heoi
      cases hnil
      exact Nat.le_refl 1
  | seqHead heoi =>
    cases heoi with
    | nil => exact Nat.zero_le 1
    | all heoi =>
      cases heoi
      exact Nat.le_refl 1
  | seqTail heoi hnil =>
    cases heoi
    cases hnil with
    | nil => exact Nat.le_refl 1
    | all hnil =>
      cases hnil
      exact Nat.le_refl 1

/-- The end of the input behind a repeated character is read once. -/
theorem not_begins_two_ends (hc : endMark ≠ c) {r₁ r₂ r₃ : Regex.TextRange} :
    ¬ Begins table {} (.seq r [.repeated r₁ (.char r₂ c) 0 none, .eoi r₃]) [endMark, endMark] := by
  -- what the repetition reads is not the end of the input, so the rest would be two of them
  have hsplit : ∀ {u v : List Nat}, [endMark, endMark] = u ++ v →
      Begins table {} (.repeated r₁ (.char r₂ c) 0 none) u → ¬ v.length ≤ 1 := by
    intro u v huv hu
    cases u with
    | nil => simp [← show _ = v from huv]
    | cons d u => exact absurd (eq_of_begins_repeated hu d (by simp)) ((List.cons.inj huv).1 ▸ hc)
  generalize hw : [endMark, endMark] = w
  intro h
  cases h with
  | nil => cases hw
  | all h =>
    cases h with
    | seqCons hu hv => exact hsplit hw (.all hu) (length_le_of_begins_eoi (.all hv))
  | seqHead h => exact hc (eq_of_begins_repeated h endMark (by simp [← hw]))
  | seqTail hu hv => exact hsplit hw (.all hu) (length_le_of_begins_eoi hv)

end Trees

theorem root_last : (Regex.parse "x*{eoi}" none).1.root =
    .seq ⟨0, 7⟩ [.repeated ⟨0, 2⟩ (.char ⟨0, 1⟩ 120) 0 none, .eoi ⟨2, 7⟩] := by
  cbv

theorem root_repeated : (Regex.parse "x({eoi})*" none).1.root =
    .seq ⟨0, 9⟩ [.char ⟨0, 1⟩ 120,
      .repeated ⟨1, 9⟩ (.group ⟨1, 8⟩ none (.eoi ⟨2, 7⟩)) 0 none] := by
  cbv

/-- The scanner before a text in one of the lexer states. -/
def endScanner (state : Nat) (text : String) : Scanner :=
  { Scanner.new (build endDraft.freeze {}).1 text with state }

/-- The repeated rule matches its character without the end of the input. -/
theorem candidate_repeated : Candidate endDraft.freeze {} 2 ['x'] 2 1 := by
  refine ⟨_, competes_endDraft.mpr ⟨rfl, rfl⟩, Or.inl ⟨Nat.le_refl 1, Nat.le_refl 1, .plain ?_⟩⟩
  have hchar : Matches (patternTable endDraft.freeze).1 {} (.char ⟨0, 1⟩ 120) [120] :=
    .char (Or.inl rfl)
  rw [root_repeated]
  exact .seqCons hchar (.seqCons matches_no_copies (.seqNil {} _))

/-- **A match is lost** where the rule could read the end of the input twice. -/
theorem match_lost_after_end : endDraft.freeze.Frozen ∧
    (endScanner 2 "x").next.result
      = .error (.invalidToken "x" ⟨⟨0, 1, 1⟩, ⟨1, 1, 2⟩⟩) ∧
    Candidate endDraft.freeze {} 2 (endScanner 2 "x").rest 2 1 :=
  ⟨endDraft_frozen, by decide +kernel, candidate_repeated⟩

theorem not_beginsWith_repeated :
    ¬ BeginsWith endDraft.freeze {} 2 (codes ['y'] ++ [endMark]) := by
  rintro ⟨i, r, hcompetes, hbegins⟩
  obtain ⟨rfl, hr⟩ := competes_endDraft.mp hcompetes
  cases hr
  rw [root_repeated] at hbegins
  exact absurd (head_of_begins_char hbegins) (by decide)

theorem not_candidate_of_invalid_repeated : endDraft.freeze.Frozen ∧
    ¬ BeginsWith endDraft.freeze {} 2 (codes ['y'] ++ [endMark]) ∧
    (endScanner 2 "y").next.result = .error (.invalidToken "y" ⟨⟨0, 1, 1⟩, ⟨1, 1, 2⟩⟩) ∧
    ∀ i k, ¬ Candidate endDraft.freeze {} 2 ['y'] i k := by
  have hinvalid : (endScanner 2 "y").next.result
      = .error (.invalidToken "y" ⟨⟨0, 1, 1⟩, ⟨1, 1, 2⟩⟩) := by
    decide +kernel
  have htable : (endScanner 2 "y").table = (build endDraft.freeze {}).1 := rfl
  exact ⟨endDraft_frozen, not_beginsWith_repeated, hinvalid,
    not_candidate_of_invalid endDraft_frozen {} htable not_beginsWith_repeated hinvalid⟩

/-- **The end of the input is not reported** where a rule needs more after it. -/
theorem end_not_reported : endDraft.freeze.Frozen ∧ 0 < endDraft.freeze.states.size ∧
    (Run.of (build endDraft.freeze {}).1 "" [.setState 1, .next]).answers
      = [.error (.invalidToken "" (.point .start))] ∧
    (Run.of (build endDraft.freeze {}).1 "" [.setState 1, .next]).scanner.next.result
      = .ok none :=
  ⟨endDraft_frozen, by decide +kernel, by decide +kernel, by decide +kernel⟩

/-- A rule that ends with the end of the input matches it. -/
theorem endsClean_last : EndsClean endDraft.freeze {} 0 := by
  intro _
  constructor
  · refine ⟨0, _, competes_endDraft.mpr ⟨rfl, rfl⟩, Or.inr ⟨rfl, .plain ?_⟩⟩
    rw [root_last]
    exact .seqCons matches_no_copies (.seqCons (.eoi {} _) (.seqNil {} _))
  · rintro ⟨i, r, hcompetes, hbegins⟩
    obtain ⟨rfl, hr⟩ := competes_endDraft.mp hcompetes
    cases hr
    rw [root_last] at hbegins
    exact not_begins_two_ends (by decide) hbegins

/-- Calls on a text with a character that no rule matches; the lexer state that is called for is
the first one. -/
def endCalls : List Call := [.next, .next, .setState 0, .next, .next, .next, .next]

theorem run_ends_once_last : endDraft.freeze.Frozen ∧ 0 < endDraft.freeze.states.size ∧
    (∀ q, q = 0 ∨ .setState q ∈ endCalls → EndsClean endDraft.freeze {} q) ∧
    ∃ before, (∀ a ∈ before, isLast a = false) ∧ ∃ n,
      (Run.of (build endDraft.freeze {}).1 "yxx" endCalls).answers
        = before ++ .ok (some (eoiToken endDraft.freeze (.after "yxx".toList))) ::
          .replicate n (.ok none) := by
  have hstates : 0 < endDraft.freeze.states.size := by decide +kernel
  have hclean : ∀ q, q = 0 ∨ .setState q ∈ endCalls → EndsClean endDraft.freeze {} q := by
    intro q hq
    obtain rfl : q = 0 := by simpa [endCalls] using hq
    exact endsClean_last
  obtain ⟨⟨before, hbefore, ⟨-, hmore⟩ | ⟨hanswers, -⟩⟩, hdone⟩ :=
    run_ends_once endDraft_frozen hstates {} "yxx" endCalls hclean
  · exact absurd (hdone (by decide)) hmore
  · exact ⟨endDraft_frozen, hstates, hclean, before, hbefore, hanswers⟩

end GrammarTables.Scan
