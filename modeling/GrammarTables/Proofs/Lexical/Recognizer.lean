import GrammarTables.Proofs.Lexical.Tracking
/-
# The automaton of a grammar recognizes its rules

What a scanner may rely on (`Reader`), and that the automaton of a plan keeps it
(`planFor_reader`): the state after a word accepts exactly the rules that match the word, the
best first; where no transition is left, no longer word is matched; only the start is a start.
A word that the automaton reads is one that some rule can begin with (`planFor_begun`).

Where rules read the end of the input last, if at all, more holds (`Recognizer`,
`planFor_recognizer`): after the end of the input some rule is accepted and nothing more is read.
What the tables need of an automaton holds of every plan (`planFor_grounded`).
-/

namespace GrammarTables.Lexical

/-! ## 1. What a scanner relies on -/

/-- The state after a word of code points. -/
def Matcher.At (m : Matcher) (classOf : Nat → Nat) (start : Nat) (w : List Nat) (n : Nat) : Prop :=
  m.dfa.run start (w.map classOf) = some n

/-- From `start`, the matcher tells which words each rule matches (`Word`) and which code points
must not follow it (`Ahead`). -/
structure Reader (m : Matcher) (before : Nat → Nat → Bool) (classOf : Nat → Nat) (start : Nat)
    (Word : Nat → List Nat → Prop) (Ahead : Nat → Nat → Prop) : Prop where
  start_lt : start < m.dfa.size
  step_lt : ∀ {n k t : Nat}, m.dfa.step n k = some t → t < m.dfa.size
  classes : ∀ {c : Nat}, c ≤ endMark → classOf c < m.classes
  classOf_pos : ∀ {c : Nat}, c < endMark → classOf c ≠ eoiClass
  classOf_endMark : classOf endMark = eoiClass
  stuck : ∀ {w : List Nat} {n c r : Nat} {v : List Nat}, m.At classOf start w n →
    (∀ c ∈ w, c ≤ endMark) → c ≤ endMark → m.dfa.step n (classOf c) = none → ¬ Word r (w ++ c :: v)
  accepts : ∀ {w : List Nat} {n r : Nat}, m.At classOf start w n → (∀ c ∈ w, c ≤ endMark) →
    w ≠ [] → (r ∈ m.dfa.acceptsOf n ↔ Word r w)
  accepts_start : m.dfa.acceptsOf start = []
  sorted : ∀ {n : Nat}, n < m.dfa.size → (m.dfa.acceptsOf n).Pairwise (before · · = true)
  isStart : m.dfa.isStart start = true
  not_isStart : ∀ {w : List Nat} {n : Nat}, m.At classOf start w n → (∀ c ∈ w, c ≤ endMark) →
    w ≠ [] → m.dfa.isStart n = false
  excludes : ∀ {r c : Nat}, c ≤ endMark → (m.excludes r (classOf c) = true ↔ Ahead r c)
  ahead_lt : ∀ {r c : Nat}, Ahead r c → c < endMark

/-- A reader for which the end of the input is the last that is read, and read by a rule. -/
structure Recognizer (m : Matcher) (before : Nat → Nat → Bool) (classOf : Nat → Nat) (start : Nat)
    (Word : Nat → List Nat → Prop) (Ahead : Nat → Nat → Prop) : Prop
    extends Reader m before classOf start Word Ahead where
  eoi_last : ∀ {w : List Nat} {n : Nat}, m.At classOf start (w ++ [endMark]) n →
    (∀ c ∈ w, c ≤ endMark) →
    (∀ {c : Nat}, c ≤ endMark → m.dfa.step n (classOf c) = none) ∧ ∃ r, Word r (w ++ [endMark])

/-! ## 2. Runs -/

theorem Dfa.run_append (d : Dfa) (ks ls : List Nat) : ∀ s : Nat,
    d.run s (ks ++ ls) = (d.run s ks).bind fun t => d.run t ls := by
  induction ks with
  | nil => exact fun s => rfl
  | cons k ks ih =>
    intro s
    rw [List.cons_append, run, run]
    cases d.step s k with
    | none => rfl
    | some t => exact ih t

theorem Matcher.at_snoc {m : Matcher} {classOf : Nat → Nat} {start c n : Nat} {w : List Nat} :
    m.At classOf start (w ++ [c]) n ↔
      ∃ k, m.At classOf start w k ∧ m.dfa.step k (classOf c) = some n := by
  unfold Matcher.At
  rw [List.map_append, Dfa.run_append, Option.bind_eq_some_iff]
  refine exists_congr fun k => and_congr_right fun _ => ?_
  simp only [List.map_cons, List.map_nil, Dfa.run, Option.bind_eq_some_iff, Option.some.injEq,
    exists_eq_right]

theorem Matcher.at_nil {m : Matcher} {classOf : Nat → Nat} {start n : Nat} :
    m.At classOf start [] n ↔ n = start := by
  simp [Matcher.At, Dfa.run, eq_comm]

/-! ## 3. Ranks of rules -/

/-- Rules are ranked by their priority, the highest first. -/
theorem ranksBefore_eq (rules : Array LexicalRule) : ranksBefore rules =
    rankedBefore fun i => -(rules[i]?.map (·.priority)).getD 0 := by
  funext i j
  rw [Bool.eq_iff_iff, rankedBefore_iff]
  cases hi : rules[i]? <;> cases hj : rules[j]? <;>
    simp [ranksBefore, hi, hj, @eq_comm _ (0 : Int)]

theorem ranks_ranksBefore (rules : Array LexicalRule) : Ranks (ranksBefore rules) :=
  ranksBefore_eq rules ▸ ranks_rankedBefore _

/-! ## 4. Empty matches and lookaheads -/

theorem getD_foldl_clear (starts : List Nat) {n : Nat} : ∀ {accepts : Array (List Nat)},
    (starts.foldl (fun acc s => acc.setIfInBounds s []) accepts).getD n []
      = if n ∈ starts then [] else accepts.getD n [] := by
  induction starts with
  | nil => intro accepts; simp
  | cons s starts ih =>
    intro accepts
    rw [List.foldl_cons, ih]
    by_cases hn : n ∈ starts
    · simp [hn]
    · simp only [hn, if_false, List.mem_cons, or_false]
      rw [getD_setIfInBounds]
      by_cases hs : s = n
      · subst hs
        by_cases hlt : s < accepts.size <;> simp [hlt]
      · simp [hs, Ne.symm hs]

/-- The starts accept nothing; nothing else changes. -/
theorem acceptsOf_withoutEmptyMatches (d : Dfa) (n : Nat) :
    d.withoutEmptyMatches.acceptsOf n = if n ∈ d.starts then [] else d.acceptsOf n :=
  getD_foldl_clear d.starts

theorem getD_foldl_mark (ks : List Nat) {i : Nat} : ∀ {row : Array Bool},
    (ks.foldl (fun row k => row.setIfInBounds k true) row).getD i false = true ↔
      row.getD i false = true ∨ i < row.size ∧ i ∈ ks := by
  induction ks with
  | nil => intro row; simp
  | cons k ks ih =>
    intro row
    rw [List.foldl_cons, ih, Array.size_setIfInBounds]
    have hone : (row.setIfInBounds k true).getD i false = true ↔
        row.getD i false = true ∨ i < row.size ∧ i = k := by
      rw [getD_setIfInBounds]
      split
      · rename_i h
        simp [← h.1, h.2]
      · rename_i h
        simp only [iff_self_or]
        rintro ⟨hlt, rfl⟩
        exact absurd ⟨rfl, hlt⟩ h
    rw [hone, List.mem_cons, or_assoc, ← and_or_left]

theorem getD_excludedRow {alphabet : Alphabet} {c : Option CompiledRule} {k : Nat} :
    (excludedRow alphabet c).getD k false = true ↔ k < alphabet.count ∧
      ∃ rule set, c = some rule ∧ rule.lookahead = some set ∧ k ∈ alphabet.classesOf set := by
  have hfalse : ¬ (Array.replicate alphabet.count false).getD k false = true := by
    rw [Array.getD_eq_getD_getElem?, Array.getElem?_replicate]
    split <;> simp
  unfold excludedRow
  cases c with
  | none => simp
  | some rule =>
    simp only [Option.bind_some]
    cases hset : rule.lookahead with
    | none => simp [hset]
    | some set =>
      simp only
      rw [getD_foldl_mark, or_iff_right hfalse, Array.size_replicate]
      constructor
      · rintro ⟨hlt, hk⟩
        exact ⟨hlt, rule, set, rfl, hset, hk⟩
      · rintro ⟨hlt, rule', set', heq, hset', hk⟩
        cases heq
        rw [hset] at hset'
        cases hset'
        exact ⟨hlt, hk⟩

/-! ## 5. The plan of a grammar -/

/-- The entries of the rules that are active in a lexer state. -/
def ruleEntries (g : Grammar) (compiled : List (Option CompiledRule)) (state : Nat) : List Nat :=
  (g.lexicalRules.toList.zip compiled).filterMap fun (r, c) =>
    c.bind fun c => if r.states.contains state then some c.fragment.start else none

theorem mem_ruleEntries {g : Grammar} {compiled : List (Option CompiledRule)} {state t : Nat} :
    t ∈ ruleEntries g compiled state ↔ ∃ (i : Nat) (r : LexicalRule) (c : CompiledRule),
      g.lexicalRules[i]? = some r ∧ compiled[i]? = some (some c) ∧ state ∈ r.states ∧
        t = c.fragment.start := by
  unfold ruleEntries
  rw [List.mem_filterMap]
  constructor
  · rintro ⟨⟨r, c⟩, hzip, hsome⟩
    obtain ⟨i, hi⟩ := List.mem_iff_getElem?.mp hzip
    obtain ⟨hr, hc⟩ := List.getElem?_zip_eq_some.mp hi
    simp only at hsome
    obtain ⟨c, rfl, hsome⟩ := Option.bind_eq_some_iff.mp hsome
    split at hsome
    · rename_i hstate
      cases hsome
      exact ⟨i, r, c, by simpa using hr, hc, by simpa using hstate, rfl⟩
    · cases hsome
  · rintro ⟨i, r, c, hr, hc, hstate, rfl⟩
    refine ⟨(r, some c), List.mem_iff_getElem?.mpr ⟨i, List.getElem?_zip_eq_some.mpr ⟨?_, hc⟩⟩, ?_⟩
    · simpa using hr
    · simp [hstate]

/-- The rule of an index matches a word in a lexer state. -/
def MatchesWord (g : Grammar) (roles : List Role) (state i : Nat) (w : List Nat) : Prop :=
  ∃ r e, g.lexicalRules[i]? = some r ∧ roles[i]? = some (.matched e) ∧ state ∈ r.states ∧
    w ∈ (Expr.seq e.body).language

/-- Some rule that is active in a lexer state can begin by reading a word. -/
def BeginsWord (g : Grammar) (roles : List Role) (state : Nat) (w : List Nat) : Prop :=
  ∃ (i : Nat) (r : LexicalRule) (e : RuleExpr), g.lexicalRules[i]? = some r ∧
    roles[i]? = some (.matched e) ∧ state ∈ r.states ∧ w ∈ (Expr.seq e.body).begun

/-- The code point must not follow the rule of an index. -/
def MustNotFollow (roles : List Role) (i c : Nat) : Prop :=
  ∃ e s, roles[i]? = some (.matched e) ∧ e.lookahead = some s ∧ c ∈ s

theorem getElem?_map_expr? {roles : List Role} {i : Nat} {e : RuleExpr} :
    (roles.map Role.expr?)[i]? = some (some e) ↔ roles[i]? = some (.matched e) := by
  rw [List.getElem?_map, Option.map_eq_some_iff]
  constructor
  · rintro ⟨role, hrole, he⟩
    cases role with
    | matched e' => cases he; exact hrole
    | dropped => cases he
    | word => cases he
  · exact fun h => ⟨.matched e, h, rfl⟩

/-- The deterministic automaton of some compiled rules. -/
def fullDfa (g : Grammar) (compiled : List (Option CompiledRule)) (a : Nfa) (starts : List Nat)
    (sets : List CharSet) : Dfa :=
  .ofNfa (classNfa a (.of sets) compiled) starts (Alphabet.of sets).count
    (ranksBefore g.lexicalRules)

/-- The parts that a plan is made from. -/
structure Parts (g : Grammar) (roles : List Role) (compiled : List (Option CompiledRule))
    (a : Nfa) (base : Nat) (starts : List Nat) (sets : List CharSet) : Prop where
  plan_eq : planFor g roles =
    { roles
      compiled := compiled.toArray
      alphabet := .of sets
      full := fullDfa g compiled a starts sets
      matcher :=
        { dfa := (fullDfa g compiled a starts sets).withoutEmptyMatches
          classes := (Alphabet.of sets).count
          excluded := (compiled.map (excludedRow (.of sets))).toArray } }
  bounded : a.Bounded
  starts_eq : starts = (List.range g.states.size).map (base + ·)
  size_eq : a.size = base + g.states.size
  silent_lt : ∀ m ∈ a.silent, m.2 < base
  reading_lt : ∀ m ∈ a.reading, m.2.2 < base
  sets_read : ∀ m ∈ a.reading, m.2.1 ∈ sets
  sets_ahead : ∀ {i : Nat} {c : CompiledRule} {s : CharSet}, compiled[i]? = some (some c) →
    c.lookahead = some s → s ∈ sets
  lookahead : ∀ {i : Nat} {c : CompiledRule}, compiled[i]? = some (some c) →
    ∃ e, roles[i]? = some (.matched e) ∧ c.lookahead = e.lookahead
  compiled_of : ∀ {i : Nat} {e : RuleExpr}, roles[i]? = some (.matched e) →
    ∃ c, compiled[i]? = some (some c)
  stops : ∀ {i j : Nat} {c c' : CompiledRule}, compiled[i]? = some (some c) →
    compiled[j]? = some (some c') → c.fragment.stop = c'.fragment.stop → i = j
  stop_lt : ∀ {i : Nat} {c : CompiledRule}, compiled[i]? = some (some c) → c.fragment.stop < a.size
  words : ∀ {q i : Nat} {c : CompiledRule} {w : List Nat}, q < g.states.size →
    compiled[i]? = some (some c) →
    (Path a.silent a.reading (base + q) w c.fragment.stop ↔ MatchesWord g roles q i w)
  begun : ∀ {q t : Nat} {w : List Nat}, q < g.states.size →
    Path a.silent a.reading (base + q) w t → w ≠ [] → BeginsWord g roles q w
  eoi : (∀ e, .matched e ∈ roles → (Expr.seq e.body).EoiLast) → ∀ m ∈ a.reading, endMark ∈ m.2.1 →
    (∃ (i : Nat) (c : CompiledRule), compiled[i]? = some (some c) ∧ m.2.2 = c.fragment.stop) ∧
      (∀ n ∈ a.silent, n.1 ≠ m.2.2) ∧ ∀ n ∈ a.reading, n.1 ≠ m.2.2

/-- **The parts of a plan.** -/
theorem exists_parts (g : Grammar) (roles : List Role) :
    ∃ compiled a base starts sets, Parts g roles compiled a base starts sets := by
  obtain ⟨ds, dr, hadds, hjoined⟩ := buildRules_joined (roles.map Role.expr?) {}
  set compiled := (buildRules (roles.map Role.expr?) {}).1 with hcompiled
  set b := (buildRules (roles.map Role.expr?) {}).2 with hb
  set lists := (List.range g.states.size).map (ruleEntries g compiled) with hlists
  obtain ⟨es, hentries⟩ := addEntries_adds lists b
  set starts := (addEntries lists b).1
  set a := (addEntries lists b).2
  have hlength : lists.length = g.states.size := by simp [hlists]
  have hsilent : a.silent = es ++ ds := by rw [hentries.silent_eq, hadds.silent_eq, List.append_nil]
  have hreading : a.reading = dr := by rw [hentries.reading_eq, hadds.reading_eq, List.append_nil]
  have hsize : a.size = b.size + g.states.size := by rw [hentries.size_eq, hlength]
  have hlist : ∀ {q : Nat}, q < g.states.size → lists[q]? = some (ruleEntries g compiled q) := by
    intro q hq
    simp [hlists, hq]
  have htargets : ∀ ts ∈ lists, ∀ t ∈ ts, ∃ (j : Nat) (c : CompiledRule),
      compiled[j]? = some (some c) ∧ t = c.fragment.start := by
    intro ts hts t ht
    obtain ⟨q, -, rfl⟩ := List.mem_map.mp hts
    obtain ⟨j, -, c, -, hc, -, rfl⟩ := mem_ruleEntries.mp ht
    exact ⟨j, c, hc, rfl⟩
  have hentry : ∀ {s t : Nat}, (s, t) ∈ es → s < a.size ∧ t < b.size := by
    intro s t hst
    obtain ⟨q, ts, hq, rfl, ht⟩ := hentries.mem_iff.mp hst
    obtain ⟨j, c, hc, rfl⟩ := htargets ts (List.mem_of_getElem? hq) t ht
    have hq := (List.getElem?_eq_some_iff.mp hq).1
    exact ⟨by omega, (hjoined.inside hc).1.2⟩
  refine ⟨compiled, a, b.size, starts, _, rfl, ⟨?_, ?_⟩, ?_, hsize, ?_, ?_, ?_, ?_, ?_, ?_, ?_, ?_,
    ?_, ?_, ?_⟩
  · intro s t hst
    rw [hsilent] at hst
    rcases List.mem_append.mp hst with hst | hst
    · have := hentry hst
      omega
    · have hm := hjoined.within.silent _ hst
      have := hm.1.2
      have := hm.2.2
      omega
  · intro s t set hst
    rw [hreading] at hst
    have hm := hjoined.within.read _ hst
    have hs : s < b.size := hm.1.2
    have ht : t < b.size := hm.2.2
    omega
  · rw [hentries.starts_eq, hlength]
  · rintro ⟨s, t⟩ hst
    rw [hsilent] at hst
    rcases List.mem_append.mp hst with hst | hst
    · exact (hentry hst).2
    · exact (hjoined.within.silent _ hst).2.2
  · intro m hm
    rw [hreading] at hm
    exact (hjoined.within.read m hm).2.2
  · intro m hm
    refine List.mem_append_left _ (Array.mem_toList_iff.mpr ((mem_internAll _).mpr (Or.inr ?_)))
    exact List.mem_map.mpr ⟨m, hm, rfl⟩
  · intro i c s hc hs
    refine List.mem_append_right _ (List.mem_filterMap.mpr ⟨some c, List.mem_of_getElem? hc, ?_⟩)
    exact hs
  · intro i c hc
    obtain ⟨e, he⟩ := hjoined.hasRule hc
    exact ⟨e, getElem?_map_expr?.mp he.rule, he.lookahead⟩
  · intro i e he
    exact hjoined.compiled (getElem?_map_expr?.mpr he)
  · exact fun hc hc' heq => hjoined.apart hc hc' (Or.inr heq)
  · intro i c hc
    have := (hjoined.inside hc).2.2
    omega
  · intro q i c w hq hc
    obtain ⟨e, he⟩ := hjoined.hasRule hc
    rw [path_entry_iff hadds hjoined hentries htargets (hlist hq) hc he.rule, mem_ruleEntries]
    constructor
    · rintro ⟨⟨j, r, c', hr, hc', hstate, hstart⟩, hw⟩
      obtain rfl := hjoined.apart hc hc' (Or.inl hstart)
      exact ⟨r, e, hr, getElem?_map_expr?.mp he.rule, hstate, hw⟩
    · rintro ⟨r, e', hr, he', hstate, hw⟩
      obtain rfl : e' = e := by
        have := (getElem?_map_expr?.mpr he').symm.trans he.rule
        simpa using this
      exact ⟨⟨i, r, c, hr, hc, hstate, rfl⟩, hw⟩
  · intro q t w hq hpath hne
    obtain ⟨i, e, c, he, hc, hstart, hw⟩ :=
      (path_entry_begun hadds hjoined hentries htargets (hlist hq) hpath).resolve_left hne
    obtain ⟨j, r, c', hr, hc', hstate, heq⟩ := mem_ruleEntries.mp hstart
    obtain rfl := hjoined.apart hc hc' (Or.inl heq)
    exact ⟨i, r, e, hr, getElem?_map_expr?.mp he, hstate, hw⟩
  · intro hlast m hm hmem
    have hrs : ∀ r, some r ∈ roles.map Role.expr? → (Expr.seq r.body).EoiLast := by
      intro r hr
      obtain ⟨i, hi⟩ := List.mem_iff_getElem?.mp hr
      exact hlast r (List.mem_of_getElem? (getElem?_map_expr?.mp hi))
    rw [hreading] at hm ⊢
    obtain ⟨⟨i, c, hc, heq⟩, hs, hr⟩ := hjoined.eoi hrs m hm hmem
    refine ⟨⟨i, c, hc, heq⟩, ?_, hr⟩
    rw [hsilent]
    refine List.forall_mem_append.mpr ⟨fun n hn => ?_, hs⟩
    obtain ⟨q, ts, -, hn, -⟩ := hentries.mem_iff.mp (show (n.1, n.2) ∈ es from hn)
    have := (hjoined.within.read m hm).2.2
    omega

/-- The states of the deterministic automaton, by words. -/
theorem Subsets.tracks {a : Nfa} {compiled : List (Option CompiledRule)} {sets : List CharSet}
    {starts : List Nat} {before : Nat → Nat → Bool} {d : Dfa}
    (h : Subsets (classNfa a (.of sets) compiled) starts (Alphabet.of sets).count before d)
    (hbounded : a.Bounded) (hread : ∀ m ∈ a.reading, m.2.1 ∈ sets) {s start : Nat} (hs : s < a.size)
    (hstart : d.sets[start]? = some ((classNfa a (.of sets) compiled).closure [s])) :
    ∀ {w : List Nat} {n : Nat}, (∀ c ∈ w, c ≤ endMark) →
      d.run start (w.map (Alphabet.of sets).classOf) = some n →
      ∃ set, d.sets[n]? = some set ∧ Tracks a s w set := by
  intro w
  induction w using List.reverseRecOn with
  | nil =>
    intro n _ hrun
    cases hrun
    exact ⟨_, hstart, tracks_start hbounded hs⟩
  | append_singleton w c ih =>
    intro n hw hrun
    have hc : c ≤ endMark := hw c (by simp)
    rw [List.map_append, Dfa.run_append] at hrun
    obtain ⟨k, hk, hstep⟩ := Option.bind_eq_some_iff.mp hrun
    have hstep : d.step k ((Alphabet.of sets).classOf c) = some n := by
      simpa [Dfa.run] using hstep
    obtain ⟨set, hset, htracks⟩ := ih (fun x hx => hw x (by simp [hx])) hk
    obtain ⟨hlt, -, hnext⟩ := h.step_some hset hstep
    exact ⟨_, hnext, tracks_step hbounded hread htracks hc hlt⟩

theorem run_withoutEmptyMatches (d : Dfa) (ks : List Nat) : ∀ s,
    d.withoutEmptyMatches.run s ks = d.run s ks := by
  induction ks with
  | nil => exact fun s => rfl
  | cons k ks ih =>
    intro s
    rw [Dfa.run, Dfa.run]
    exact Option.bind_congr fun t _ => ih t

namespace Parts

variable {g : Grammar} {roles : List Role} {compiled : List (Option CompiledRule)} {a : Nfa}
  {base : Nat} {starts : List Nat} {sets : List CharSet}

/-- An entry is left for good. -/
theorem not_path_entry (h : Parts g roles compiled a base starts sets) {z q : Nat}
    (hz : z < base) : ¬ Path a.silent a.reading z [] (base + q) := by
  rw [Path.nil_iff]
  intro hpath
  rcases Relation.ReflTransGen.cases_tail hpath with heq | ⟨x, -, hx⟩
  · omega
  · have := h.silent_lt _ hx
    simp only at this
    omega

theorem subsets (g : Grammar) (compiled : List (Option CompiledRule)) (a : Nfa)
    (starts : List Nat) (sets : List CharSet) :
    Subsets (classNfa a (.of sets) compiled) starts (Alphabet.of sets).count
      (ranksBefore g.lexicalRules) (fullDfa g compiled a starts sets) :=
  Dfa.ofNfa_subsets _ _ _ _

/-- The starts stand for what the entries reach without reading. -/
theorem start_iff (h : Parts g roles compiled a base starts sets) {q n : Nat}
    (hn : (fullDfa g compiled a starts sets).starts[q]? = some n) : q < g.states.size ∧
      (fullDfa g compiled a starts sets).sets[n]?
        = some ((classNfa a (.of sets) compiled).closure [base + q]) := by
  have hmap := congrArg (fun l => l[q]?) (subsets g compiled a starts sets).starts_eq
  simp only [List.getElem?_map, hn, Option.map_some] at hmap
  obtain ⟨s, hs, heq⟩ := Option.map_eq_some_iff.mp hmap.symm
  obtain ⟨hlt, hs⟩ := List.getElem?_eq_some_iff.mp hs
  simp only [h.starts_eq, List.length_map, List.length_range, List.getElem_map,
    List.getElem_range] at hlt hs
  exact ⟨hlt, by rw [← heq, hs]⟩

theorem exists_start (h : Parts g roles compiled a base starts sets) {q : Nat}
    (hq : q < g.states.size) : ∃ n, (fullDfa g compiled a starts sets).starts[q]? = some n := by
  have hmap := congrArg (fun l => l[q]?) (subsets g compiled a starts sets).starts_eq
  have hstarts : starts[q]? = some (base + q) := by simp [h.starts_eq, hq]
  simp only [List.getElem?_map, hstarts, Option.map_some] at hmap
  obtain ⟨n, hn, -⟩ := Option.map_eq_some_iff.mp hmap
  exact ⟨n, hn⟩

section

variable {q start n : Nat} {w : List Nat}

theorem tracks (h : Parts g roles compiled a base starts sets)
    (hstart : (fullDfa g compiled a starts sets).starts[q]? = some start)
    (hw : ∀ c ∈ w, c ≤ endMark)
    (hrun : (fullDfa g compiled a starts sets).run start (w.map (Alphabet.of sets).classOf)
      = some n) :
    ∃ set, (fullDfa g compiled a starts sets).sets[n]? = some set ∧ Tracks a (base + q) w set := by
  obtain ⟨hq, hset⟩ := h.start_iff hstart
  refine (subsets g compiled a starts sets).tracks h.bounded h.sets_read ?_ hset hw hrun
  rw [h.size_eq]
  omega

/-- No start is entered again. -/
theorem not_mem_starts_of_step (h : Parts g roles compiled a base starts sets) {k m : Nat}
    (hstep : (fullDfa g compiled a starts sets).step n k = some m) :
    m ∉ (fullDfa g compiled a starts sets).starts := by
  intro hmem
  have hsub := subsets g compiled a starts sets
  obtain ⟨-, -, hset⟩ := hsub.step_some (Array.getElem?_eq_getElem (hsub.step_lt hstep)) hstep
  obtain ⟨i, hi⟩ := List.mem_iff_getElem?.mp hmem
  obtain ⟨hlt, hclosure⟩ := h.start_iff hi
  have hself : base + i ∈ (classNfa a (.of sets) compiled).closure [base + i] := by
    rw [mem_closure_classNfa h.bounded]
    exact ⟨base + i, by simp, by rw [h.size_eq]; omega, .refl _⟩
  rw [Option.some.inj (hclosure.symm.trans hset)] at hself
  obtain ⟨z, hz, -, hpath⟩ := (mem_closure_classNfa h.bounded).mp hself
  obtain ⟨-, y, -, hmoves⟩ := ClassNfa.mem_targets.mp hz
  obtain ⟨-, set, hread, -⟩ := mem_moves_classNfa.mp hmoves
  exact h.not_path_entry (h.reading_lt _ hread) hpath

theorem not_mem_starts (h : Parts g roles compiled a base starts sets) (hne : w ≠ [])
    (hrun : (fullDfa g compiled a starts sets).run start (w.map (Alphabet.of sets).classOf)
      = some n) :
    n ∉ (fullDfa g compiled a starts sets).starts := by
  obtain rfl | ⟨u, c, rfl⟩ := List.eq_nil_or_concat' w
  · exact absurd rfl hne
  · rw [List.map_append, Dfa.run_append] at hrun
    obtain ⟨k, -, hstep⟩ := Option.bind_eq_some_iff.mp hrun
    exact h.not_mem_starts_of_step (by simpa [Dfa.run] using hstep)

/-- A state accepts the rules whose stops it contains. -/
theorem mem_acceptsOf (h : Parts g roles compiled a base starts sets) {r : Nat} {set : List Nat}
    (hn : (fullDfa g compiled a starts sets).sets[n]? = some set) :
    r ∈ (fullDfa g compiled a starts sets).acceptsOf n ↔
      ∃ c : CompiledRule, compiled[r]? = some (some c) ∧ c.fragment.stop ∈ set := by
  rw [(subsets g compiled a starts sets).mem_acceptsOf (ranks_ranksBefore _) hn]
  constructor
  · rintro ⟨s, hs, hr⟩
    obtain ⟨-, c, hc, rfl⟩ := (accept_classNfa h.stops).mp hr
    exact ⟨c, hc, hs⟩
  · rintro ⟨c, hc, hs⟩
    exact ⟨_, hs, (accept_classNfa h.stops).mpr ⟨h.stop_lt hc, c, hc, rfl⟩⟩

/-- **A state accepts the rules that match the word it was reached by.** -/
theorem accepts_iff (h : Parts g roles compiled a base starts sets) {r : Nat}
    (hstart : (fullDfa g compiled a starts sets).starts[q]? = some start)
    (hw : ∀ c ∈ w, c ≤ endMark)
    (hrun : (fullDfa g compiled a starts sets).run start (w.map (Alphabet.of sets).classOf)
      = some n) :
    r ∈ (fullDfa g compiled a starts sets).acceptsOf n ↔ MatchesWord g roles q r w := by
  obtain ⟨hq, -⟩ := h.start_iff hstart
  obtain ⟨set, hn, htracks⟩ := h.tracks hstart hw hrun
  rw [h.mem_acceptsOf hn]
  constructor
  · rintro ⟨c, hc, hstop⟩
    exact (h.words hq hc).mp ((htracks _).mp hstop)
  · intro hword
    obtain ⟨rule, e, hrule, he, hrest⟩ := hword
    obtain ⟨c, hc⟩ := h.compiled_of he
    exact ⟨c, hc, (htracks _).mpr ((h.words hq hc).mpr ⟨rule, e, hrule, he, hrest⟩)⟩

/-- Where no transition is left, no rule matches anything longer. -/
theorem not_matchesWord_of_step_none (h : Parts g roles compiled a base starts sets) {r c : Nat}
    {v : List Nat} (hstart : (fullDfa g compiled a starts sets).starts[q]? = some start)
    (hw : ∀ c ∈ w, c ≤ endMark) (hc : c ≤ endMark)
    (hrun : (fullDfa g compiled a starts sets).run start (w.map (Alphabet.of sets).classOf)
      = some n)
    (hstep : (fullDfa g compiled a starts sets).step n ((Alphabet.of sets).classOf c) = none) :
    ¬ MatchesWord g roles q r (w ++ c :: v) := by
  obtain ⟨hq, -⟩ := h.start_iff hstart
  obtain ⟨set, hn, htracks⟩ := h.tracks hstart hw hrun
  rintro hword
  obtain ⟨rule, e, hrule, he, hrest⟩ := id hword
  obtain ⟨compiledRule, hcompiled⟩ := h.compiled_of he
  have hpath := (h.words hq hcompiled).mpr hword
  rw [show w ++ c :: v = (w ++ [c]) ++ v by simp, Path.append_iff] at hpath
  obtain ⟨m, hpath, -⟩ := hpath
  obtain ⟨y, s, z, hy, hm, hmem, -⟩ := Path.snoc_iff.mp hpath
  refine (subsets g compiled a starts sets).step_none hn (Alphabet.classOf_lt_count sets hc) hstep
    (t := z) ?_
  exact (moves_iff h.bounded h.sets_read htracks hc).mpr ⟨y, s, hy, hm, hmem⟩

/-- What the automaton reads is what some rule can begin with. -/
theorem beginsWord (h : Parts g roles compiled a base starts sets)
    (hstart : (fullDfa g compiled a starts sets).starts[q]? = some start)
    (hw : ∀ c ∈ w, c ≤ endMark) (hne : w ≠ [])
    (hrun : (fullDfa g compiled a starts sets).run start (w.map (Alphabet.of sets).classOf)
      = some n) :
    BeginsWord g roles q w := by
  obtain ⟨hq, -⟩ := h.start_iff hstart
  obtain rfl | ⟨u, c, rfl⟩ := List.eq_nil_or_concat' w
  · exact absurd rfl hne
  rw [List.map_append, Dfa.run_append] at hrun
  obtain ⟨k, hk, hstep⟩ := Option.bind_eq_some_iff.mp hrun
  have hstep : (fullDfa g compiled a starts sets).step k ((Alphabet.of sets).classOf c)
      = some n := by
    simpa [Dfa.run] using hstep
  obtain ⟨set, hset, htracks⟩ := h.tracks hstart (fun x hx => hw x (by simp [hx])) hk
  obtain ⟨-, ⟨t, hmoves⟩, -⟩ := (subsets g compiled a starts sets).step_some hset hstep
  obtain ⟨y, s, hy, hm, hmem⟩ :=
    (moves_iff h.bounded h.sets_read htracks (hw c (by simp))).mp hmoves
  exact h.begun hq (Path.snoc_iff.mpr ⟨y, s, t, hy, hm, hmem, .refl t⟩) hne

/-- **After the end of the input** the stop of a rule is reached, and nothing more is read. -/
theorem eoi_last (h : Parts g roles compiled a base starts sets)
    (hlast : ∀ e, .matched e ∈ roles → (Expr.seq e.body).EoiLast)
    (hstart : (fullDfa g compiled a starts sets).starts[q]? = some start)
    (hw : ∀ c ∈ w, c ≤ endMark)
    (hrun : (fullDfa g compiled a starts sets).run start
      ((w ++ [endMark]).map (Alphabet.of sets).classOf) = some n) :
    (∀ {c : Nat}, c ≤ endMark →
      (fullDfa g compiled a starts sets).step n ((Alphabet.of sets).classOf c) = none) ∧
      ∃ r, MatchesWord g roles q r (w ++ [endMark]) := by
  obtain ⟨hq, -⟩ := h.start_iff hstart
  have hw' : ∀ c ∈ w ++ [endMark], c ≤ endMark :=
    List.forall_mem_append.mpr ⟨hw, by simp⟩
  -- whatever is reached by the end of the input is the stop of a rule, with no moves
  have hstop : ∀ {t : Nat}, Path a.silent a.reading (base + q) (w ++ [endMark]) t →
      (∃ (i : Nat) (c : CompiledRule), compiled[i]? = some (some c) ∧ t = c.fragment.stop) ∧
        ∀ m ∈ a.reading, m.1 ≠ t := by
    intro t ht
    obtain ⟨y, s, z, -, hm, hmem, hrest⟩ := Path.snoc_iff.mp ht
    obtain ⟨hrule, hsilent, hread⟩ := h.eoi hlast _ hm hmem
    rw [Path.nil_iff] at hrest
    rcases Relation.ReflTransGen.cases_head hrest with rfl | ⟨x, hx, -⟩
    · exact ⟨hrule, hread⟩
    · exact absurd rfl (hsilent _ hx)
  constructor
  · intro c hc
    obtain ⟨set, hn, htracks⟩ := h.tracks hstart hw' hrun
    cases hstep : (fullDfa g compiled a starts sets).step n ((Alphabet.of sets).classOf c) with
    | none => rfl
    | some m =>
      obtain ⟨-, ⟨t, hmoves⟩, -⟩ := (subsets g compiled a starts sets).step_some hn hstep
      obtain ⟨y, s, hy, hm, -⟩ := (moves_iff h.bounded h.sets_read htracks hc).mp hmoves
      exact absurd rfl ((hstop hy).2 _ hm)
  · rw [List.map_append, Dfa.run_append] at hrun
    obtain ⟨k, hk, hstep⟩ := Option.bind_eq_some_iff.mp hrun
    have hstep : (fullDfa g compiled a starts sets).step k ((Alphabet.of sets).classOf endMark)
        = some n := by
      simpa [Dfa.run] using hstep
    obtain ⟨set, hkset, htracks⟩ := h.tracks hstart hw hk
    obtain ⟨-, ⟨t, hmoves⟩, -⟩ := (subsets g compiled a starts sets).step_some hkset hstep
    obtain ⟨y, s, hy, hm, hmem⟩ :=
      (moves_iff h.bounded h.sets_read htracks (Nat.le_refl _)).mp hmoves
    have hpath : Path a.silent a.reading (base + q) (w ++ [endMark]) t :=
      Path.snoc_iff.mpr ⟨y, s, t, hy, hm, hmem, .refl t⟩
    obtain ⟨⟨i, c, hc, rfl⟩, -⟩ := hstop hpath
    exact ⟨i, (h.words hq hc).mp hpath⟩

end

theorem excludes_iff (h : Parts g roles compiled a base starts sets) {r c : Nat}
    (hc : c ≤ endMark) :
    ((compiled.map (excludedRow (.of sets))).toArray.getD r #[]).getD
      ((Alphabet.of sets).classOf c) false = true ↔ MustNotFollow roles r c := by
  have hrow : (compiled.map (excludedRow (.of sets))).toArray.getD r #[]
      = excludedRow (.of sets) (compiled.getD r none) := by
    rw [Array.getD_eq_getD_getElem?, List.getElem?_toArray, List.getElem?_map, List.getD]
    cases compiled[r]? <;> rfl
  rw [hrow, getD_excludedRow]
  constructor
  · rintro ⟨-, rule, set, hrule, hset, hk⟩
    have hcompiled : compiled[r]? = some (some rule) := by
      rw [List.getD] at hrule
      cases hr : compiled[r]? with
      | none => simp [hr] at hrule
      | some x => simpa [hr] using hrule
    obtain ⟨e, he, hahead⟩ := h.lookahead hcompiled
    refine ⟨e, set, he, hahead ▸ hset, ?_⟩
    exact (Alphabet.mem_classesOf (h.sets_ahead hcompiled hset) hc).mp hk
  · rintro ⟨e, set, he, hset, hmem⟩
    obtain ⟨rule, hrule⟩ := h.compiled_of he
    obtain ⟨e', he', hahead⟩ := h.lookahead hrule
    obtain rfl : e' = e := by
      have := he'.symm.trans he
      simpa using this
    refine ⟨Alphabet.classOf_lt_count sets hc, rule, set, by simp [List.getD, hrule],
      hahead.trans hset, ?_⟩
    exact (Alphabet.mem_classesOf (h.sets_ahead hrule (hahead.trans hset)) hc).mpr hmem

end Parts

/-- What holds of a matcher whatever its rules read: the starts accept nothing and are not entered
again, and nothing but its states and rules is ever reached. -/
structure Matcher.Grounded (m : Matcher) (rules : Nat) : Prop where
  start_lt : ∀ {s : Nat}, s ∈ m.dfa.starts → s < m.dfa.size
  step_lt : ∀ {n k t : Nat}, m.dfa.step n k = some t → t < m.dfa.size
  not_start : ∀ {n k t : Nat}, m.dfa.step n k = some t → t ∉ m.dfa.starts
  accepts_start : ∀ {s : Nat}, s ∈ m.dfa.starts → m.dfa.acceptsOf s = []
  accepts_lt : ∀ {n r : Nat}, n < m.dfa.size → r ∈ m.dfa.acceptsOf n → r < rules

theorem planFor_grounded (g : Grammar) (roles : List Role) :
    (planFor g roles).matcher.Grounded roles.length := by
  obtain ⟨compiled, a, base, starts, sets, h⟩ := exists_parts g roles
  have hsub := Parts.subsets g compiled a starts sets
  rw [h.plan_eq]
  refine
    { start_lt := ?_
      step_lt := ?_
      not_start := fun hstep => h.not_mem_starts_of_step hstep
      accepts_start := fun hs => (acceptsOf_withoutEmptyMatches _ _).trans (if_pos hs)
      accepts_lt := ?_ }
  · intro s hs
    obtain ⟨q, hq⟩ := List.mem_iff_getElem?.mp hs
    exact (Array.getElem?_eq_some_iff.mp (h.start_iff hq).2).1
  · intro n k t hstep
    have hn : n < (fullDfa g compiled a starts sets).size := hsub.step_lt hstep
    obtain ⟨-, -, hset⟩ := hsub.step_some (Array.getElem?_eq_getElem hn) hstep
    exact (Array.getElem?_eq_some_iff.mp hset).1
  · intro n r hn hr
    rw [acceptsOf_withoutEmptyMatches] at hr
    split at hr
    · cases hr
    · obtain ⟨c, hc, -⟩ := (h.mem_acceptsOf (Array.getElem?_eq_getElem hn)).mp hr
      obtain ⟨e, he, -⟩ := h.lookahead hc
      exact (List.getElem?_eq_some_iff.mp he).1

section Plan

variable {g : Grammar} {roles : List Role} {q : Nat}

/-- There is one start for each lexer state. -/
theorem planFor_starts_lt {start : Nat}
    (hstart : (planFor g roles).matcher.dfa.starts[q]? = some start) : q < g.states.size := by
  obtain ⟨compiled, a, base, starts, sets, h⟩ := exists_parts g roles
  rw [h.plan_eq] at hstart
  exact (h.start_iff hstart).1

/-- **The automaton of a plan reads the words of the rules.** -/
theorem planFor_reader (hunicode : ∀ e, .matched e ∈ roles → ∀ s ∈ e.lookahead, s.IsUnicode)
    (hq : q < g.states.size) :
    ∃ start, (planFor g roles).matcher.dfa.starts[q]? = some start ∧
      Reader (planFor g roles).matcher (ranksBefore g.lexicalRules)
        (planFor g roles).alphabet.classOf start (MatchesWord g roles q) (MustNotFollow roles) := by
  obtain ⟨compiled, a, base, starts, sets, h⟩ := exists_parts g roles
  obtain ⟨start, hstart⟩ := h.exists_start hq
  have hsub := Parts.subsets g compiled a starts sets
  have hmem : start ∈ (fullDfa g compiled a starts sets).starts := List.mem_of_getElem? hstart
  have hgrounded := planFor_grounded g roles
  refine ⟨start, by rw [h.plan_eq]; exact hstart, ?_⟩
  rw [h.plan_eq] at hgrounded ⊢
  -- a run of the automaton without empty matches is a run of the full one
  have hrun : ∀ {w : List Nat} {n : Nat},
      (fullDfa g compiled a starts sets).withoutEmptyMatches.run start
        (w.map (Alphabet.of sets).classOf) = some n →
      (fullDfa g compiled a starts sets).run start (w.map (Alphabet.of sets).classOf) = some n := by
    intro w n hrun
    rwa [run_withoutEmptyMatches] at hrun
  refine
    { start_lt := hgrounded.start_lt hmem
      step_lt := hgrounded.step_lt
      classes := Alphabet.classOf_lt_count sets
      classOf_pos := fun hc => Nat.ne_of_gt (Alphabet.classOf_of_lt sets hc).1
      classOf_endMark := Alphabet.classOf_endMark sets
      stuck := fun hat hw hc hstep => h.not_matchesWord_of_step_none hstart hw hc (hrun hat) hstep
      accepts := ?_
      accepts_start := hgrounded.accepts_start hmem
      sorted := ?_
      isStart := List.contains_iff_mem.mpr hmem
      not_isStart := ?_
      excludes := fun hc => h.excludes_iff hc
      ahead_lt := ?_ }
  · intro w n r hat hw hne
    have hnot := h.not_mem_starts hne (hrun hat)
    rw [acceptsOf_withoutEmptyMatches, if_neg hnot]
    exact h.accepts_iff hstart hw (hrun hat)
  · intro n hn
    rw [acceptsOf_withoutEmptyMatches]
    split
    · exact List.Pairwise.nil
    · exact hsub.pairwise_acceptsOf (ranks_ranksBefore _) (Array.getElem?_eq_getElem hn)
  · intro w n hat hw hne
    have hnot := h.not_mem_starts hne (hrun hat)
    exact Bool.eq_false_iff.mpr fun hstarts => hnot (List.contains_iff_mem.mp hstarts)
  · rintro r c ⟨e, s, he, hs, hc⟩
    have hle := hunicode e (List.mem_of_getElem? he) s hs c hc
    simp only [maxCodePoint, endMark] at hle ⊢
    omega

variable {start n : Nat} {w : List Nat}
  (hstart : (planFor g roles).matcher.dfa.starts[q]? = some start)

include hstart in
/-- **What the automaton of a plan reads is what some rule can begin with.** -/
theorem planFor_begun
    (hat : (planFor g roles).matcher.At (planFor g roles).alphabet.classOf start w n)
    (hw : ∀ c ∈ w, c ≤ endMark) (hne : w ≠ []) : BeginsWord g roles q w := by
  obtain ⟨compiled, a, base, starts, sets, h⟩ := exists_parts g roles
  rw [h.plan_eq] at hstart hat
  exact h.beginsWord hstart hw hne (by rwa [Matcher.At, run_withoutEmptyMatches] at hat)

include hstart in
theorem planFor_eoi_last (hlast : ∀ e, .matched e ∈ roles → (Expr.seq e.body).EoiLast)
    (hat : (planFor g roles).matcher.At (planFor g roles).alphabet.classOf start
      (w ++ [endMark]) n) (hw : ∀ c ∈ w, c ≤ endMark) :
    (∀ {c : Nat}, c ≤ endMark → (planFor g roles).matcher.dfa.step n
      ((planFor g roles).alphabet.classOf c) = none) ∧
      ∃ r, MatchesWord g roles q r (w ++ [endMark]) := by
  obtain ⟨compiled, a, base, starts, sets, h⟩ := exists_parts g roles
  rw [h.plan_eq] at hstart hat ⊢
  exact h.eoi_last hlast hstart hw (by rwa [Matcher.At, run_withoutEmptyMatches] at hat)

end Plan

/-- **The automaton of a plan recognizes the words of the rules**, if these read the end of the
input last. -/
theorem planFor_recognizer {g : Grammar} {roles : List Role}
    (hlast : ∀ e, .matched e ∈ roles → (Expr.seq e.body).EoiLast)
    (hunicode : ∀ e, .matched e ∈ roles → ∀ s ∈ e.lookahead, s.IsUnicode) {q : Nat}
    (hq : q < g.states.size) :
    ∃ start, (planFor g roles).matcher.dfa.starts[q]? = some start ∧
      Recognizer (planFor g roles).matcher (ranksBefore g.lexicalRules)
        (planFor g roles).alphabet.classOf start (MatchesWord g roles q) (MustNotFollow roles) := by
  obtain ⟨start, hstart, hreader⟩ := planFor_reader hunicode hq
  exact ⟨start, hstart, hreader, fun hat hw => planFor_eoi_last hstart hlast hat hw⟩

end GrammarTables.Lexical
