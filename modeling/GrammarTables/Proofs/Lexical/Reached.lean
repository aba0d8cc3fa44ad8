import GrammarTables.Proofs.Lexical.Failure
import GrammarTables.Proofs.Lexical.Recognizer
import GrammarTables.Proofs.Lexical.Resolve
/-
# Every state is the state after a text

The subset construction makes no states but those that a start leads to (`Dfa.ofNfa_reached`).
Where no rule reads the end of the input and every class has a character, each state is therefore
reached by a text (`planFor_spelled`), and from each state that may fail some text gets stuck before
any rule accepts (`Matcher.Spelled.exists_strands`).
-/

namespace GrammarTables.Lexical

/-! ## 1. States that starts lead to -/

/-- **Every state of the subset construction is reached from a start.** -/
theorem Dfa.ofNfa_reached (a : ClassNfa) (starts : List Nat) (classes : Nat)
    (before : Nat → Nat → Bool) {n : Nat} (hn : n < (ofNfa a starts classes before).size) :
    ∃ start ∈ (ofNfa a starts classes before).starts, ∃ ks,
      (ofNfa a starts classes before).run start ks = some n := by
  set d := ofNfa a starts classes before with hd
  have hsub : Subsets a starts classes before d := ofNfa_subsets a starts classes before
  -- a set is found only if a start leads to its number
  have hfound : ∀ set ∈ d.sets, ∃ start ∈ d.starts, ∃ ks m,
      d.run start ks = some m ∧ d.sets[m]? = some set := by
    refine (a.explores_next starts classes).found ?_ ?_
    · intro set hset
      obtain ⟨s, hs, rfl⟩ := List.mem_map.mp hset
      have hmem : some (a.closure [s]) ∈ d.starts.map fun n => d.sets[n]? := by
        rw [hsub.starts_eq]
        exact List.mem_map.mpr ⟨s, hs, rfl⟩
      obtain ⟨start, hstart, hkey⟩ := List.mem_map.mp hmem
      exact ⟨start, hstart, [], start, rfl, hkey⟩
    · rintro set ⟨start, hstart, ks, m, hrun, hset⟩ ⟨k, set'⟩ hnext
      obtain ⟨hk, ⟨t, hmoves⟩, rfl⟩ := ClassNfa.mem_next.mp hnext
      cases hstep : d.step m k with
      | none => exact absurd hmoves (hsub.step_none hset hk hstep)
      | some m' =>
        refine ⟨start, hstart, ks ++ [k], m', ?_, (hsub.step_some hset hstep).2.2⟩
        rw [run_append, hrun]
        simp [run, hstep]
  obtain ⟨start, hstart, ks, m, hrun, hset⟩ := hfound _ (Array.getElem_mem hn)
  have heq : m = n := eq_of_getElem?_eq hsub.nodup hset (Array.getElem?_eq_getElem hn)
  exact ⟨start, hstart, ks, heq ▸ hrun⟩

/-! ## 2. Words without the end of the input -/

theorem not_mem_seqLanguage {items : List Expr}
    (h : ∀ e ∈ items, ∀ w ∈ e.language, endMark ∉ w) : ∀ w ∈ seqLanguage items, endMark ∉ w := by
  induction items with
  | nil =>
    intro w hw
    rw [seqLanguage, Language.mem_one] at hw
    simp [hw]
  | cons e es ih =>
    intro w hw
    rw [seqLanguage, Language.mem_mul] at hw
    obtain ⟨u, hu, v, hv, rfl⟩ := hw
    rw [List.mem_append, not_or]
    exact ⟨h e (by simp) u hu, ih (fun e he => h e (by simp [he])) v hv⟩

theorem not_mem_altLanguage {items : List Expr}
    (h : ∀ e ∈ items, ∀ w ∈ e.language, endMark ∉ w) : ∀ w ∈ altLanguage items, endMark ∉ w := by
  induction items with
  | nil => exact fun w hw => absurd hw (Language.notMem_zero w)
  | cons e es ih =>
    intro w hw
    rw [altLanguage, Language.mem_add] at hw
    rcases hw with hw | hw
    · exact h e (by simp) w hw
    · exact ih (fun e he => h e (by simp [he])) w hw

/-- An expression without the end of the input does not read it. -/
theorem Expr.EoiFree.not_mem {e : Expr} (h : e.EoiFree) : ∀ w ∈ e.language, endMark ∉ w := by
  induction h with
  | @chars set hset =>
    intro w hw hmem
    rw [Expr.language] at hw
    obtain ⟨c, hc, rfl⟩ := mem_letters.mp hw
    rw [List.mem_singleton.mp hmem] at hset
    exact hset hc
  | seq _ ih =>
    rw [Expr.language]
    exact not_mem_seqLanguage ih
  | alt _ ih =>
    rw [Expr.language]
    exact not_mem_altLanguage ih
  | repeated _ ih =>
    intro w hw hmem
    rw [Expr.language, mem_copies] at hw
    obtain ⟨n, -, hw⟩ := hw
    obtain ⟨ws, rfl, -, hws⟩ := Language.mem_pow.mp hw
    obtain ⟨u, hu, hmem⟩ := List.mem_flatten.mp hmem
    exact ih u (hws u hu) hmem

/-- The body of a rule is made of parts of its tree. -/
theorem mem_preorder_of_splitLookahead {root t : Regex.Tree} {body : List Regex.Tree}
    {ahead : Option (Regex.TextRange × Regex.Tree)}
    (h : splitLookahead root = .ok (body, ahead)) (ht : t ∈ body) :
    ∀ x ∈ t.preorder, x ∈ root.preorder := by
  intro x hx
  unfold splitLookahead at h
  split at h
  · cases h
  · have hmem : ∀ {items : List Regex.Tree} {r : Regex.TextRange}, t ∈ items →
        x ∈ (Regex.Tree.seq r items).preorder := by
      intro items r hitem
      simp only [Regex.Tree.preorder, List.mem_cons, Regex.Tree.mem_preorderAll]
      exact Or.inr ⟨t, hitem, hx⟩
    split at h
    · cases h
      exact hmem (List.dropLast_subset _ ht)
    · cases h
      exact hmem ht
  · cases h
    rwa [← List.mem_singleton.mp ht]

/-- A rule without the end of the input becomes an expression without it. -/
theorem eoiFree_of_resolveRule {table : PatternTable} (htable : table.Proper) {limit : Nat}
    {re : Regex} (hp : re.root.Proper) {e : RuleExpr} (h : resolveRule table limit re = .ok e)
    (hfree : ¬ UsesEoi table re.root) : (Expr.seq e.body).EoiFree := by
  obtain ⟨body, ahead, hsplit, hes, -⟩ := resolveRule_eq_ok h
  have hparts : ∀ t ∈ body, ∀ x ∈ t.preorder, x ∈ re.root.preorder :=
    fun t ht => mem_preorder_of_splitLookahead hsplit ht
  refine .seq (forall_eoiFree (exprMeaning_of_resolveAll htable (fun t ht u hu => ?_) hes) ?_)
  · exact hp u (hparts t ht u hu)
  · exact fun t ht => not_usesEoi_of_mem_preorder hfree (hparts t ht)

/-! ## 3. States after texts -/

/-- Every class is that of a character, every state is the state after a text, and the end of the
input is not read. -/
structure Matcher.Spelled (m : Matcher) (classOf : Nat → Nat) : Prop where
  char : ∀ {k : Nat}, k ≠ eoiClass → k < m.classes → ∃ c : Char, classOf c.toNat = k
  reached : ∀ {s : Nat}, s < m.dfa.size → ∃ start ∈ m.dfa.starts, ∃ u : List Char,
    m.At classOf start (u.map Char.toNat) s
  step_eoi : ∀ {s : Nat}, s < m.dfa.size → m.dfa.step s eoiClass = none

section Plan

variable {g : Grammar} {roles : List Role}

/-- After a word, a plan whose rules do not use the end of the input does not read it. -/
theorem planFor_step_eoi (hfree : ∀ e, .matched e ∈ roles → (Expr.seq e.body).EoiFree)
    {start n : Nat} (hstart : start ∈ (planFor g roles).matcher.dfa.starts) {w : List Nat}
    (hw : ∀ c ∈ w, c ≤ endMark)
    (hat : (planFor g roles).matcher.At (planFor g roles).alphabet.classOf start w n) :
    (planFor g roles).matcher.dfa.step n eoiClass = none := by
  cases hstep : (planFor g roles).matcher.dfa.step n eoiClass with
  | none => rfl
  | some t =>
    obtain ⟨q, hq⟩ := List.mem_iff_getElem?.mp hstart
    have hend : (planFor g roles).alphabet.classOf endMark = eoiClass := by
      obtain ⟨_, _, _, _, sets, h⟩ := exists_parts g roles
      rw [h.plan_eq]
      exact Alphabet.classOf_endMark sets
    have hat' : (planFor g roles).matcher.At (planFor g roles).alphabet.classOf start
        (w ++ [endMark]) t :=
      Matcher.at_snoc.mpr ⟨n, hat, by rw [hend]; exact hstep⟩
    obtain ⟨-, r, rule, e, -, he, -, hword⟩ :=
      planFor_eoi_last hq (fun e he => .free (hfree e he)) hat' hw
    exact absurd (by simp) ((hfree e (List.mem_of_getElem? he)).not_mem _ hword)

/-- The code points of a text come before the end of the input. -/
theorem forall_toNat_le (u : List Char) : ∀ c ∈ u.map Char.toNat, c ≤ endMark := by
  intro c hc
  obtain ⟨x, -, rfl⟩ := List.mem_map.mp hc
  exact Nat.le_of_lt (toNat_lt_endMark x)

theorem planFor_classes (g : Grammar) (roles : List Role) :
    (planFor g roles).matcher.classes = (planFor g roles).alphabet.count := by
  obtain ⟨compiled, a, base, starts, sets, h⟩ := exists_parts g roles
  rw [h.plan_eq]

/-- Only classes of the alphabet are read. -/
theorem planFor_step_lt {s k t : Nat} (hs : s < (planFor g roles).matcher.dfa.size)
    (hstep : (planFor g roles).matcher.dfa.step s k = some t) :
    k < (planFor g roles).alphabet.count := by
  obtain ⟨compiled, a, base, starts, sets, h⟩ := exists_parts g roles
  rw [h.plan_eq] at hs hstep ⊢
  exact ((Parts.subsets g compiled a starts sets).step_some (Array.getElem?_eq_getElem hs) hstep).1

/-- Every state of a plan is reached from a start. -/
theorem planFor_reached {s : Nat} (hs : s < (planFor g roles).matcher.dfa.size) :
    ∃ start ∈ (planFor g roles).matcher.dfa.starts, ∃ ks,
      (planFor g roles).matcher.dfa.run start ks = some s := by
  obtain ⟨compiled, a, base, starts, sets, h⟩ := exists_parts g roles
  rw [h.plan_eq] at hs ⊢
  obtain ⟨start, hstart, ks, hrun⟩ := Dfa.ofNfa_reached _ _ _ _ hs
  exact ⟨start, hstart, ks, (run_withoutEmptyMatches _ ks start).trans hrun⟩

variable (hfree : ∀ e, .matched e ∈ roles → (Expr.seq e.body).EoiFree)
  (hchar : ∀ k, k ≠ eoiClass → k < (planFor g roles).alphabet.count →
    ∃ c : Char, (planFor g roles).alphabet.classOf c.toNat = k)

include hfree hchar in
/-- A run from a start reads the classes of a text. -/
theorem exists_text_of_run {start : Nat} (hstart : start ∈ (planFor g roles).matcher.dfa.starts)
    (ks : List Nat) : ∀ {n : Nat}, (planFor g roles).matcher.dfa.run start ks = some n →
      n < (planFor g roles).matcher.dfa.size ∧ ∃ u : List Char,
        (planFor g roles).matcher.At (planFor g roles).alphabet.classOf start
          (u.map Char.toNat) n := by
  have hgrounded := planFor_grounded g roles
  induction ks using List.reverseRecOn with
  | nil =>
    intro n hrun
    cases hrun
    exact ⟨hgrounded.start_lt hstart, [], Matcher.at_nil.mpr rfl⟩
  | append_singleton ks k ih =>
    intro n hrun
    rw [Dfa.run_append] at hrun
    obtain ⟨n', hrun', hstep⟩ := Option.bind_eq_some_iff.mp hrun
    have hstep : (planFor g roles).matcher.dfa.step n' k = some n := by
      simpa [Dfa.run] using hstep
    obtain ⟨hn', u, hat⟩ := ih hrun'
    have hk : k ≠ eoiClass := by
      rintro rfl
      rw [planFor_step_eoi hfree hstart (forall_toNat_le u) hat] at hstep
      cases hstep
    obtain ⟨c, rfl⟩ := hchar k hk (planFor_step_lt hn' hstep)
    refine ⟨hgrounded.step_lt hstep, u ++ [c], ?_⟩
    rw [List.map_append]
    exact Matcher.at_snoc.mpr ⟨n', hat, hstep⟩

include hfree hchar in
/-- **Every state of a plan is the state after a text**, if no rule uses the end of the input and
every class is that of a character. -/
theorem planFor_spelled :
    (planFor g roles).matcher.Spelled (planFor g roles).alphabet.classOf := by
  have hreached : ∀ {s : Nat}, s < (planFor g roles).matcher.dfa.size →
      ∃ start ∈ (planFor g roles).matcher.dfa.starts, ∃ u : List Char,
        (planFor g roles).matcher.At (planFor g roles).alphabet.classOf start
          (u.map Char.toNat) s := by
    intro s hs
    obtain ⟨start, hstart, ks, hrun⟩ := planFor_reached hs
    exact ⟨start, hstart, (exists_text_of_run hfree hchar hstart ks hrun).2⟩
  refine ⟨fun hk hlt => hchar _ hk (planFor_classes g roles ▸ hlt), hreached, fun hs => ?_⟩
  obtain ⟨start, hstart, u, hat⟩ := hreached hs
  exact planFor_step_eoi hfree hstart (forall_toNat_le u) hat

end Plan

/-! ## 4. Texts that get stuck -/

/-- Reading the text from a state gets stuck before any rule accepts. -/
inductive Matcher.Strands (m : Matcher) (classOf : Nat → Nat) : Nat → List Char → Prop
  | atEnd {s : Nat} : m.stuckAt s eoiClass = true → Strands m classOf s []
  | atChar {s : Nat} {c : Char} (rest : List Char) : m.stuckAt s (classOf c.toNat) = true →
      Strands m classOf s (c :: rest)
  | read {s t : Nat} {c : Char} {rest : List Char} : m.acceptAt s (classOf c.toNat) = none →
      m.dfa.step s (classOf c.toNat) = some t → Strands m classOf t rest →
      Strands m classOf s (c :: rest)

/-- **From a state that may fail, some text gets stuck**: one with the classes of a word that
fails. -/
theorem Matcher.Spelled.exists_strands {m : Matcher} {classOf : Nat → Nat}
    (h : m.Spelled classOf)
    (hlt : ∀ {s k t : Nat}, m.dfa.step s k = some t → t < m.dfa.size) {s : Nat}
    (hs : s < m.dfa.size) (hfails : m.mayFail.getD s false = true) :
    ∃ text, m.Strands classOf s text := by
  obtain ⟨w, hw⟩ := (mayFail_iff hlt hs).mp hfails
  clear hfails
  induction hw with
  | @stuck s k hk haccept hnone hend =>
    have hstuck := stuckAt_iff.mpr ⟨haccept, hnone, hend⟩
    by_cases heoi : k = eoiClass
    · exact ⟨[], .atEnd (heoi ▸ hstuck)⟩
    · obtain ⟨c, rfl⟩ := h.char heoi hk
      exact ⟨[c], .atChar [] hstuck⟩
  | @read s t k w hk haccept hstep _ ih =>
    obtain ⟨text, htext⟩ := ih (hlt hstep)
    have heoi : k ≠ eoiClass := by
      rintro rfl
      rw [h.step_eoi hs] at hstep
      cases hstep
    obtain ⟨c, rfl⟩ := h.char heoi hk
    exact ⟨c :: text, .read haccept hstep htext⟩

end GrammarTables.Lexical
