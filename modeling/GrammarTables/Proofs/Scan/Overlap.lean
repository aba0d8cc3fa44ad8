import GrammarTables.Proofs.FirstOccurrence
import GrammarTables.Proofs.Grammar.Numbered
import GrammarTables.Proofs.Lexical.CodePoints
import GrammarTables.Proofs.Scan.NeverMatched
/-
# Rules that match the same texts

Two warnings are about texts alone: a rule that matches the empty text, and two rules of equal
priority that match the same text, of which one wins.  They are read off the states of the
automaton, and they are exact (`overlap_exact`): each state but the starts is the state after some
words and no others, the rules that it accepts are those that match these words, and the starts
are never entered again, so that they stand for the empty text alone.
-/

namespace GrammarTables.Lexical

/-! ## 1. Words and states -/

section Words

variable {g : Grammar} {roles : List Role}

/-- A run reads classes of the alphabet. -/
theorem planFor_run_lt {ks : List Nat} : ∀ {s n : Nat}, s < (planFor g roles).matcher.dfa.size →
    (planFor g roles).matcher.dfa.run s ks = some n →
      ∀ k ∈ ks, k < (planFor g roles).alphabet.count := by
  induction ks with
  | nil => simp
  | cons k ks ih =>
    intro s n hs hrun
    obtain ⟨t, hstep, hrun⟩ := Option.bind_eq_some_iff.mp hrun
    exact List.forall_mem_cons.mpr
      ⟨planFor_step_lt hs hstep, ih ((planFor_grounded g roles).step_lt hstep) hrun⟩

/-- Classes of an alphabet are those of a word. -/
theorem Alphabet.exists_word {sets : List CharSet} {ks : List Nat}
    (h : ∀ k ∈ ks, k < (of sets).count) :
    ∃ w : List Nat, (∀ c ∈ w, c ≤ endMark) ∧ w.map (of sets).classOf = ks := by
  induction ks with
  | nil => exact ⟨[], by simp, rfl⟩
  | cons k ks ih =>
    obtain ⟨hk, hks⟩ := List.forall_mem_cons.mp h
    obtain ⟨w, hw, rfl⟩ := ih hks
    obtain ⟨c, hc, rfl⟩ := exists_classOf.mp hk
    exact ⟨c :: w, List.forall_mem_cons.mpr ⟨hc, hw⟩, rfl⟩

/-- **Every state of a plan is the state after a word.** -/
theorem planFor_word {s : Nat} (hs : s < (planFor g roles).matcher.dfa.size) :
    ∃ (q start : Nat) (w : List Nat), (planFor g roles).matcher.dfa.starts[q]? = some start ∧
      (∀ c ∈ w, c ≤ endMark) ∧
      (planFor g roles).matcher.At (planFor g roles).alphabet.classOf start w s := by
  obtain ⟨start, hmem, ks, hrun⟩ := planFor_reached hs
  obtain ⟨q, hq⟩ := List.mem_iff_getElem?.mp hmem
  have hks := planFor_run_lt ((planFor_grounded g roles).start_lt hmem) hrun
  obtain ⟨_, _, _, _, sets, h⟩ := exists_parts g roles
  rw [h.plan_eq] at hks hrun ⊢
  obtain ⟨w, hw, rfl⟩ := Alphabet.exists_word hks
  exact ⟨q, start, w, by rwa [h.plan_eq] at hq, hw, hrun⟩

/-- What a rule can begin with is read. -/
theorem Reader.exists_at {m : Matcher} {before : Nat → Nat → Bool} {classOf : Nat → Nat}
    {start : Nat} {Word : Nat → List Nat → Prop} {Ahead : Nat → Nat → Prop}
    (h : Reader m before classOf start Word Ahead) {r : Nat} {u : List Nat} : ∀ {v : List Nat},
      (∀ c ∈ u, c ≤ endMark) → Word r (u ++ v) → ∃ n, m.At classOf start u n := by
  induction u using List.reverseRecOn with
  | nil => exact fun _ _ => ⟨start, Matcher.at_nil.mpr rfl⟩
  | append_singleton u c ih =>
    intro v hle hword
    obtain ⟨hu, hc⟩ := List.forall_mem_append.mp hle
    have hc : c ≤ endMark := hc c (List.mem_singleton_self c)
    rw [List.append_assoc, List.singleton_append] at hword
    obtain ⟨n, hat⟩ := ih hu hword
    cases hstep : m.dfa.step n (classOf c) with
    | none => exact absurd hword (h.stuck hat hu hc hstep)
    | some t => exact ⟨t, Matcher.at_snoc.mpr ⟨n, hat, hstep⟩⟩

/-- **The rules that accept the empty text** in some lexer state are those that match it. -/
theorem mem_emptyMatches (hstates : ∀ r ∈ g.lexicalRules, ∀ q ∈ r.states, q < g.states.size)
    {i : Nat} : i ∈ emptyMatches (planFor g roles) ↔ ∃ q, MatchesWord g roles q i [] := by
  obtain ⟨compiled, a, base, starts, sets, h⟩ := exists_parts g roles
  rw [emptyMatches, h.plan_eq, List.mem_eraseDups, List.mem_flatMap]
  constructor
  · rintro ⟨start, hstart, haccept⟩
    obtain ⟨q, hq⟩ := List.mem_iff_getElem?.mp hstart
    exact ⟨q, (h.accepts_iff hq (by simp) rfl).mp haccept⟩
  · rintro ⟨q, hword⟩
    obtain ⟨r, e, hr, -, hactive, -⟩ := id hword
    obtain ⟨start, hstart⟩ := h.exists_start (hstates r (Array.mem_of_getElem? hr) q hactive)
    exact ⟨start, List.mem_of_getElem? hstart, (h.accepts_iff hstart (by simp) rfl).mpr hword⟩

end Words

/-- What accepts a rule is a state. -/
theorem planFor_lt_of_accepts {s r : Nat} (h : r ∈ (planFor g roles).matcher.dfa.acceptsOf s) :
    s < (planFor g roles).matcher.dfa.size := by
  obtain ⟨compiled, a, base, starts, sets, hparts⟩ := exists_parts g roles
  rw [hparts.plan_eq] at h ⊢
  rw [acceptsOf_withoutEmptyMatches] at h
  have hsize : (fullDfa g compiled a starts sets).accepts.size
      = (fullDfa g compiled a starts sets).size := by simp [fullDfa, Dfa.ofNfa, Dfa.size]
  split at h
  · cases h
  · by_contra hge
    have hge : (fullDfa g compiled a starts sets).size ≤ s := Nat.not_lt.mp hge
    rw [Dfa.acceptsOf, Array.getD_eq_getD_getElem?, Array.getElem?_eq_none (by omega)] at h
    cases h

/-! ## 2. Pairs of rules -/

/-- A pair is the best rule that some state accepts, and another rule that it accepts. -/
theorem mem_shadowings {d : Dfa} {a b : Nat} : (a, b) ∈ shadowings d ↔
    ∃ s rest, d.acceptsOf s = a :: rest ∧ b ∈ rest := by
  have hstate : ∀ {rules : List Nat}, rules ≠ [] →
      (rules ∈ d.accepts.toList ↔ ∃ s, d.acceptsOf s = rules) := by
    intro rules hne
    rw [Array.mem_toList_iff, Array.mem_iff_getElem?]
    refine exists_congr fun s => ?_
    rw [Dfa.acceptsOf, Array.getD_eq_getD_getElem?]
    cases d.accepts[s]? with
    | none => simp [hne.symm]
    | some rules' => simp
  rw [shadowings, List.mem_flatMap]
  constructor
  · rintro ⟨rules, hrules, hpair⟩
    cases rules with
    | nil => simp at hpair
    | cons best rest =>
      obtain ⟨s, hs⟩ := (hstate (by simp)).mp hrules
      obtain ⟨b', hb, heq⟩ := List.mem_map.mp hpair
      obtain ⟨rfl, rfl⟩ := Prod.mk.inj heq
      exact ⟨s, rest, hs, hb⟩
  · rintro ⟨s, rest, hs, hb⟩
    exact ⟨a :: rest, (hstate (by simp)).mpr ⟨s, hs⟩, List.mem_map.mpr ⟨b, hb, rfl⟩⟩

theorem ranks_pairBefore : Ranks pairBefore where
  irrefl p := by simp [pairBefore]
  trans h h' := by
    simp only [pairBefore, Bool.or_eq_true, Bool.and_eq_true, decide_eq_true_eq] at *
    omega
  total {p q} h h' := by
    simp only [pairBefore, Bool.or_eq_false_iff, Bool.and_eq_false_iff, decide_eq_false_iff_not]
      at h h'
    ext <;> omega

end GrammarTables.Lexical

namespace GrammarTables.Scan

open Lexical

/-! ## 3. Texts and rules -/

/-- The rule of an index was compiled, is active in a lexer state, and its regular expression
matches a word; what follows the word does not matter. -/
def BodyMatches (g : Grammar) (options : LexOptions) (state i : Nat) (w : List Nat) : Prop :=
  ∃ r, Competes g options state i r ∧ RuleMatches (patternTable g).1 r.regex.root w none

/-- Of the rules that match a word in a lexer state, the one that outranks the others. -/
def BestBody (g : Grammar) (options : LexOptions) (state i : Nat) (w : List Nat) : Prop :=
  BodyMatches g options state i w ∧
    ∀ j, BodyMatches g options state j w → j = i ∨ Outranks g.lexicalRules i j

/-- The rule of an index was compiled, and its regular expression matches the empty text. -/
def MatchesEmpty (g : Grammar) (options : LexOptions) (i : Nat) : Prop :=
  ∃ r e, g.lexicalRules[i]? = some r ∧
    (roleOf g (patternTable g).1 options.maxRepeat r).1 = .matched e ∧
    RuleMatches (patternTable g).1 r.regex.root [] none

/-- Some text is matched by two rules of equal priority, and the first of them wins. -/
def Ambiguous (g : Grammar) (options : LexOptions) (a b : Nat) : Prop :=
  b ≠ a ∧ g.lexicalRules[a]?.map (·.priority) = g.lexicalRules[b]?.map (·.priority) ∧
    ∃ state w, w ≠ [] ∧ (∀ c ∈ w, c ≤ maxCodePoint) ∧ BestBody g options state a w ∧
      BodyMatches g options state b w

/-- The winner of equal priority is the rule that was declared first. -/
theorem Ambiguous.lt {g : Grammar} {options : LexOptions} {a b : Nat}
    (h : Ambiguous g options a b) : a < b ∧ b < g.lexicalRules.size := by
  obtain ⟨hne, hpriority, state, w, -, -, hbest, hbody⟩ := h
  obtain ⟨r, s, hr, hs, hranks⟩ := (hbest.2 b hbody).resolve_left hne
  have heq : r.priority = s.priority := by simpa [hr, hs] using hpriority
  have hlt := (Array.getElem?_eq_some_iff.mp hs).1
  omega

theorem not_ranksBefore_of_outranks {rules : Array LexicalRule} {i j : Nat}
    (h : Outranks rules i j) : ¬ ranksBefore rules j i = true := by
  obtain ⟨r, s, hr, hs, h⟩ := h
  simp only [ranksBefore, hr, hs, Bool.or_eq_true, Bool.and_eq_true, decide_eq_true_eq]
  omega

section Texts

variable {g : Grammar} (hg : g.Frozen) {options : LexOptions}

include hg in
/-- The automaton matches the same words. -/
theorem bodyMatches_iff {state i : Nat} {w : List Nat} : BodyMatches g options state i w ↔
    MatchesWord g (rolesOf g options.maxRepeat) state i w := by
  have hiff := @ruleMatches_iff g hg options.maxRepeat i state w none
  simp only [Option.mem_def, reduceCtorEq, false_imp_iff, implies_true, and_true] at hiff
  rw [← hiff]
  constructor
  · rintro ⟨r, ⟨hr, hstate, e, he⟩, hmatches⟩
    exact ⟨r, e, hr, he, hstate, hmatches⟩
  · rintro ⟨r, e, hr, he, hstate, hmatches⟩
    exact ⟨r, ⟨hr, hstate, e, he⟩, hmatches⟩

include hg in
/-- A lexer state in which a rule is active is one of the grammar. -/
theorem state_lt_of_active {r : LexicalRule} (hr : r ∈ g.lexicalRules) {state : Nat}
    (hstate : state ∈ r.states) : state < g.states.size := by
  obtain ⟨d, hd, rfl⟩ := hg
  obtain ⟨i, hi⟩ := Array.mem_iff_getElem?.mp hr
  exact (hd.closed.lexicalRules i r hi).states state hstate

include hg in
/-- **The rules that accept the empty text.** -/
theorem mem_emptyMatches_plan {i : Nat} :
    i ∈ emptyMatches (plan g options.maxRepeat).1 ↔ MatchesEmpty g options i := by
  rw [plan_eq, mem_emptyMatches fun r hr q hq => state_lt_of_active hg hr hq]
  constructor
  · rintro ⟨q, hword⟩
    obtain ⟨r, ⟨hr, -, e, he⟩, hmatches⟩ := (bodyMatches_iff hg).mpr hword
    exact ⟨r, e, hr, he, hmatches⟩
  · rintro ⟨r, e, hr, he, hmatches⟩
    -- every rule is active somewhere
    obtain ⟨q, hq⟩ : ∃ q, q ∈ r.states := by
      obtain ⟨d, hd, rfl⟩ := hg
      exact List.exists_mem_of_ne_nil _ (hd.closed.lexicalRules i r hr).nonempty
    exact ⟨q, (bodyMatches_iff hg).mp ⟨r, ⟨hr, hq, e, he⟩, hmatches⟩⟩

include hg in
/-- **After a word, the automaton accepts the best rule that matches it first.** -/
theorem bestBody_iff_head? {state start n i : Nat} {w : List Nat} (hne : w ≠ [])
    (hw : ∀ c ∈ w, c ≤ endMark)
    (hreader : Reader (planFor g (rolesOf g options.maxRepeat)).matcher
      (ranksBefore g.lexicalRules) (planFor g (rolesOf g options.maxRepeat)).alphabet.classOf start
      (MatchesWord g (rolesOf g options.maxRepeat) state)
      (MustNotFollow (rolesOf g options.maxRepeat)))
    (hat : (planFor g (rolesOf g options.maxRepeat)).matcher.At
      (planFor g (rolesOf g options.maxRepeat)).alphabet.classOf start w n) :
    BestBody g options state i w ↔
      ((planFor g (rolesOf g options.maxRepeat)).matcher.dfa.acceptsOf n).head? = some i := by
  have haccepts : ∀ {j : Nat},
      j ∈ (planFor g (rolesOf g options.maxRepeat)).matcher.dfa.acceptsOf n ↔
        BodyMatches g options state j w :=
    fun {j} => (hreader.accepts hat hw hne).trans (bodyMatches_iff hg).symm
  have hsorted := hreader.sorted (lt_size_of_at hreader hat hw)
  generalize (planFor g (rolesOf g options.maxRepeat)).matcher.dfa.acceptsOf n = rules
    at haccepts hsorted
  constructor
  · rintro ⟨hmatches, hbest⟩
    cases rules with
    | nil => exact absurd (haccepts.mpr hmatches) (by simp)
    | cons best rest =>
      rw [List.head?_cons, Option.some.injEq]
      rcases hbest best (haccepts.mp (by simp)) with h | hout
      · exact h
      · -- the first rule would have to outrank itself
        by_contra hne
        have hi : i ∈ rest := (List.mem_cons.mp (haccepts.mpr hmatches)).resolve_left (Ne.symm hne)
        have hbefore := (List.pairwise_cons.mp hsorted).1 i hi
        exact absurd hbefore (not_ranksBefore_of_outranks hout)
  · intro hhead
    obtain ⟨rest, rfl⟩ := List.head?_eq_some_iff.mp hhead
    have hi := haccepts.mp (by simp : i ∈ i :: rest)
    refine ⟨hi, fun j hj => ?_⟩
    refine (List.mem_cons.mp (haccepts.mpr hj)).imp_right fun hrest => ?_
    obtain ⟨r, ⟨hr, -⟩, -⟩ := hi
    obtain ⟨s, ⟨hs, -⟩, -⟩ := hj
    exact outranks_of_ranksBefore hr hs ((List.pairwise_cons.mp hsorted).1 j hrest)

include hg in
/-- Without the end of the input, rules match words of code points. -/
theorem le_maxCodePoint_of_bodyMatches
    (heoi : ∀ r ∈ g.lexicalRules, ¬ UsesEoi (patternTable g).1 r.regex.root) {state i : Nat}
    {w : List Nat} (hw : ∀ c ∈ w, c ≤ endMark) (h : BodyMatches g options state i w) :
    ∀ c ∈ w, c ≤ maxCodePoint := by
  obtain ⟨r, e, hr, he, -, hword⟩ := (bodyMatches_iff hg).mp h
  have hfree := eoiFree_of_mem_rolesOf hg heoi (List.mem_of_getElem? he)
  intro c hc
  have hle := hw c hc
  have hne : c ≠ endMark := fun h => hfree.not_mem w hword (h ▸ hc)
  simp only [maxCodePoint, endMark] at *
  omega

include hg in
/-- **The ambiguities of the automaton** are the pairs of rules that share a text. -/
theorem mem_ambiguities
    (heoi : ∀ r ∈ g.lexicalRules, ¬ UsesEoi (patternTable g).1 r.regex.root) {a b : Nat} :
    (a, b) ∈ ambiguities g (plan g options.maxRepeat).1.matcher.dfa ↔ Ambiguous g options a b := by
  rw [plan_eq, ambiguities, ranks_pairBefore.mem_sortBy, List.mem_filter, mem_shadowings,
    decide_eq_true_eq, and_comm, Ambiguous, and_left_comm]
  refine and_congr_right fun _ => ?_
  constructor
  · rintro ⟨s, rest, hs, hb⟩
    -- the state is reached by a word, which is not empty since starts accept nothing
    obtain ⟨state, start, w, hstart, hw, hat⟩ := planFor_word (s := s)
      (planFor_lt_of_accepts (by rw [hs]; exact List.mem_cons_self))
    obtain ⟨start', hstart', hreader⟩ := exists_reader g options hg
      (planFor_starts_lt hstart)
    obtain rfl := Option.some.inj (hstart.symm.trans hstart')
    have hne : w ≠ [] := by
      rintro rfl
      rw [Matcher.at_nil.mp hat, hreader.accepts_start] at hs
      cases hs
    have hbest := (bestBody_iff_head? hg hne hw hreader hat).mpr (by rw [hs, List.head?_cons])
    have hbody : BodyMatches g options state b w :=
      (bodyMatches_iff hg).mpr ((hreader.accepts hat hw hne).mp (by simp [hs, hb]))
    have hsorted := hreader.sorted (lt_size_of_at hreader hat hw)
    rw [hs] at hsorted
    refine ⟨?_, state, w, hne, le_maxCodePoint_of_bodyMatches hg heoi hw hbody, hbest, hbody⟩
    rintro rfl
    have hself := (List.pairwise_cons.mp hsorted).1 b hb
    rw [(ranks_ranksBefore _).irrefl] at hself
    cases hself
  · rintro ⟨hba, state, w, hne, hw, hbest, hbody⟩
    have hw : ∀ c ∈ w, c ≤ endMark := fun c hc => Nat.le_succ_of_le (hw c hc)
    obtain ⟨r, ⟨hr, hactive, -⟩, -⟩ := id hbody
    obtain ⟨start, hstart, hreader⟩ := exists_reader g options hg
      (state_lt_of_active hg (Array.mem_of_getElem? hr) hactive)
    have hword := (bodyMatches_iff hg).mp hbody
    obtain ⟨n, hat⟩ := hreader.exists_at (v := []) hw (by rwa [List.append_nil])
    obtain ⟨rest, hrest⟩ := List.head?_eq_some_iff.mp
      ((bestBody_iff_head? hg hne hw hreader hat).mp hbest)
    have hmem := (hreader.accepts hat hw hne).mpr hword
    rw [hrest, List.mem_cons] at hmem
    exact ⟨n, rest, hrest, hmem.resolve_left hba⟩

end Texts

/-! ## 4. Warnings -/

/-- The warning for a rule that matches the empty text. -/
structure IgnoresEmpty (g : Grammar) (i : Nat) (d : Diagnostic) : Prop where
  severity : d.severity = .warning
  kind : d.kind = .emptyMatch
  message : d.message =
    s!"lexical rule `{ruleNameAt g i}' accepts empty text, the empty match is ignored"
  anchors : d.anchors = (ruleOriginAt g i).toList

/-- The warning for two rules that match the same text, of which the first wins. -/
structure Shadows (g : Grammar) (a b : Nat) (d : Diagnostic) : Prop where
  severity : d.severity = .warning
  kind : d.kind = .lexicalAmbiguity
  message :
    let first := ruleNameAt g a
    let second := ruleNameAt g b
    d.message =
      s!"`{first}' and `{second}' accept the same text with equal priority, `{first}' wins"
  anchors : d.anchors = (ruleOriginAt g a).toList ++ (ruleOriginAt g b).toList

theorem forall₂_emptyMatchFindings (g : Grammar) (p : Plan) :
    List.Forall₂ (IgnoresEmpty g) (emptyMatches p) (emptyMatchFindings g p) := by
  refine List.forall₂_map_right_iff.mpr (List.forall₂_same.mpr fun i _ => ⟨rfl, rfl, rfl, ?_⟩)
  simp only [Diagnostic.warning]
  cases ruleOriginAt g i <;> rfl

theorem forall₂_ambiguityFindings (g : Grammar) (p : Plan) :
    List.Forall₂ (fun pair => Shadows g pair.1 pair.2) (ambiguities g p.matcher.dfa)
      (ambiguityFindings g p) := by
  refine List.forall₂_map_right_iff.mpr (List.forall₂_same.mpr fun pair _ => ⟨rfl, rfl, rfl, ?_⟩)
  simp only [Diagnostic.warning]
  cases ruleOriginAt g pair.1 <;> cases ruleOriginAt g pair.2 <;> rfl

theorem findingsOf_emptyMatch (g : Grammar) (options : LexOptions) :
    findingsOf .emptyMatch (build g options).2
      = emptyMatchFindings g (plan g options.maxRepeat).1 := by
  rw [findingsOf_build, findingsOf_eq_nil fun d hd => by simp [kind_of_mem_plan hd],
    findingsOf_eq_self fun d hd => kind_of_mem_emptyMatchFindings hd,
    findingsOf_eq_nil fun d hd => by simp [kind_of_mem_ambiguityFindings hd],
    findingsOf_eq_nil fun d hd => by simp [kind_of_mem_unreachableFindings hd],
    findingsOf_eq_nil fun d hd => by rcases kind_of_mem_takenWords hd with h | h <;> simp [h]]
  simp

/-- The other warnings about ambiguities are those about words. -/
theorem findingsOf_lexicalAmbiguity (g : Grammar) (options : LexOptions) :
    findingsOf .lexicalAmbiguity (build g options).2
      = ambiguityFindings g (plan g options.maxRepeat).1
        ++ findingsOf .lexicalAmbiguity (takenWords g (plan g options.maxRepeat).1).2 := by
  rw [findingsOf_build, findingsOf_eq_nil fun d hd => by simp [kind_of_mem_plan hd],
    findingsOf_eq_nil fun d hd => by simp [kind_of_mem_emptyMatchFindings hd],
    findingsOf_eq_self fun d hd => kind_of_mem_ambiguityFindings hd,
    findingsOf_eq_nil fun d hd => by simp [kind_of_mem_unreachableFindings hd]]
  simp

/-- **The warnings about texts alone are exact.**  Each rule that matches the empty text is warned
of once, and so is each pair of rules that share a text with equal priority, the winner first; the
other warnings about ambiguities are those about words of class rules. -/
theorem overlap_exact {g : Grammar} (hg : g.Frozen) (options : LexOptions)
    (heoi : ∀ r ∈ g.lexicalRules, ¬ UsesEoi (patternTable g).1 r.regex.root) :
    (∃ rules : List Nat, rules.Nodup ∧
      List.Forall₂ (IgnoresEmpty g) rules (findingsOf .emptyMatch (build g options).2) ∧
      ∀ i, i ∈ rules ↔ MatchesEmpty g options i) ∧
    ∃ pairs : List (Nat × Nat), pairs.Nodup ∧
      List.Forall₂ (fun pair => Shadows g pair.1 pair.2) pairs
        (ambiguityFindings g (plan g options.maxRepeat).1) ∧
      findingsOf .lexicalAmbiguity (build g options).2
        = ambiguityFindings g (plan g options.maxRepeat).1
          ++ findingsOf .lexicalAmbiguity (takenWords g (plan g options.maxRepeat).1).2 ∧
      ∀ a b, (a, b) ∈ pairs ↔ Ambiguous g options a b := by
  refine ⟨⟨emptyMatches (plan g options.maxRepeat).1, nodup_eraseDups _, ?_, ?_⟩,
    ambiguities g (plan g options.maxRepeat).1.matcher.dfa, ?_, ?_, ?_, ?_⟩
  · rw [findingsOf_emptyMatch]
    exact forall₂_emptyMatchFindings g _
  · exact fun i => mem_emptyMatches_plan hg
  · refine (ranks_pairBefore.pairwise_sortBy _).imp fun {p q} hbefore heq => ?_
    rw [heq, ranks_pairBefore.irrefl] at hbefore
    cases hbefore
  · exact forall₂_ambiguityFindings g _
  · exact findingsOf_lexicalAmbiguity g options
  · exact fun a b => mem_ambiguities hg heoi

/-- Names and a keyword: none matches the empty text, and of the keyword both are matched. -/
theorem overlap_shadow : shadowDraft.freeze.Frozen ∧
    (∀ r ∈ shadowDraft.freeze.lexicalRules,
      ¬ UsesEoi (patternTable shadowDraft.freeze).1 r.regex.root) ∧
    (∀ i, ¬ MatchesEmpty shadowDraft.freeze {} i) ∧
    ∀ a b, Ambiguous shadowDraft.freeze {} a b ↔ a = 0 ∧ b = 1 := by
  have hfrozen : shadowDraft.freeze.Frozen := ⟨shadowDraft, shadowDraft_reached, rfl⟩
  obtain ⟨⟨rules, -, hrules, hempty⟩, pairs, -, hpairs, -, hambiguous⟩ :=
    overlap_exact hfrozen {} shadowDraft_not_usesEoi
  have hnone : findingsOf .emptyMatch (build shadowDraft.freeze {}).2 = [] := by decide +kernel
  have hone :
      (ambiguityFindings shadowDraft.freeze (plan shadowDraft.freeze 1000).1).length = 1 := by
    decide +kernel
  have hsize : shadowDraft.freeze.lexicalRules.size = 2 := by decide +kernel
  refine ⟨hfrozen, shadowDraft_not_usesEoi, fun i hi => ?_, ?_⟩
  · rw [hnone] at hrules
    cases hrules
    exact List.not_mem_nil ((hempty i).mpr hi)
  · obtain ⟨⟨a, b⟩, rfl⟩ := List.length_eq_one_iff.mp (hpairs.length_eq.trans hone)
    have hlt := ((hambiguous a b).mp (List.mem_singleton_self _)).lt
    intro a' b'
    rw [← hambiguous, List.mem_singleton, Prod.mk.injEq]
    omega

end GrammarTables.Scan
