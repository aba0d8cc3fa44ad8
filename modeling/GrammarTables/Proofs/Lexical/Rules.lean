import GrammarTables.Lexical.Plan
import GrammarTables.Proofs.Lexical.Thompson
/-
# The automaton of all rules

Fragments of different rules share no states, so the stop of a rule is reached exactly by the
words of that rule (`buildRules_joined`).  An entry is added for each lexer state; nothing leads
back to an entry, and what is read from it is a word that one of its rules can begin with
(`path_entry_begun`).  Where the end of the input is read last, reading it leads to the stop of a
rule, and nothing leads on from there.
-/

namespace GrammarTables.Lexical

/-! ## 1. Where the end of the input is read -/

/-- No new move reads the end of the input. -/
def ReadsNoEoi (a b : Nfa) : Prop :=
  ∃ dr, b.reading = dr ++ a.reading ∧ ∀ m ∈ dr, endMark ∉ m.2.1

theorem ReadsNoEoi.of_eq {a b : Nfa} (h : b.reading = a.reading) : ReadsNoEoi a b :=
  ⟨[], by simpa using h, by simp⟩

theorem ReadsNoEoi.trans {a b c : Nfa} (h : ReadsNoEoi a b) (h' : ReadsNoEoi b c) :
    ReadsNoEoi a c := by
  obtain ⟨dr, hdr, hfree⟩ := h
  obtain ⟨dr', hdr', hfree'⟩ := h'
  exact ⟨dr' ++ dr, by rw [hdr', hdr, List.append_assoc],
    List.forall_mem_append.mpr ⟨hfree', hfree⟩⟩

theorem readsNoEoi_chain {build : Nfa → Fragment × Nfa} {after : Nfa → Nat → Nfa}
    (hbuild : ∀ a, ReadsNoEoi a (build a).2) (hafter : ∀ a s, (after a s).reading = a.reading)
    (n : Nat) : ∀ (cur : Nat) (a : Nfa), ReadsNoEoi a (Nfa.chain build after n cur a).2 := by
  induction n with
  | zero => exact fun cur a => .of_eq rfl
  | succ n ih =>
    intro cur a
    have hnext : ReadsNoEoi (build a).2
        (after ((build a).2.addSilent cur (build a).1.start) (build a).1.stop) :=
      .of_eq (hafter _ _)
    exact ((hbuild a).trans hnext).trans (ih _ _)

theorem readsNoEoi_addRepeated {build : Nfa → Fragment × Nfa}
    (hbuild : ∀ a, ReadsNoEoi a (build a).2) (min : Nat) (max : Option Nat) (a : Nfa) :
    ReadsNoEoi a (Nfa.addRepeated build min max a).2 := by
  have hchain : ReadsNoEoi a (Nfa.chain build (fun a _ => a) min a.size a.addState.2).2 :=
    (ReadsNoEoi.of_eq (a := a) (b := a.addState.2) rfl).trans
      (readsNoEoi_chain hbuild (fun _ _ => rfl) min a.size a.addState.2)
  cases max with
  | none => exact (hchain.trans (hbuild _)).trans (.of_eq rfl)
  | some max =>
    set cur := (Nfa.chain build (fun a _ => a) min a.size a.addState.2).1
    set b := (Nfa.chain build (fun a _ => a) min a.size a.addState.2).2
    have hrest : ReadsNoEoi (b.addState.2.addSilent cur b.size)
        (Nfa.chain build (fun a s => a.addSilent s b.size) (max - min) cur
          (b.addState.2.addSilent cur b.size)).2 :=
      @readsNoEoi_chain build (fun a s => a.addSilent s b.size) hbuild (fun _ _ => rfl) _ _ _
    exact (hchain.trans (.of_eq rfl)).trans hrest

mutual

theorem readsNoEoi_build : ∀ (e : Expr), e.EoiFree → ∀ a, ReadsNoEoi a (e.build a).2
  | .chars set, h, a => by
    cases h with
    | chars h =>
      rw [build_chars]
      exact ⟨[(a.size, set, a.size + 1)], rfl, by simpa using h⟩
  | .seq items, h, a => by
    cases h with
    | seq h =>
      rw [build_seq]
      exact (ReadsNoEoi.of_eq (a := a) (b := a.addState.2) rfl).trans
        (readsNoEoi_buildSeq items h _ _)
  | .alt items, h, a => by
    cases h with
    | alt h =>
      rw [build_alt]
      exact (ReadsNoEoi.of_eq (a := a) (b := a.addState.2.addState.2) rfl).trans
        (readsNoEoi_buildAlt items h _ _ _)
  | .repeated inner min max, h, a => by
    cases h with
    | repeated h => exact readsNoEoi_addRepeated (readsNoEoi_build inner h) min max a

theorem readsNoEoi_buildSeq : ∀ (es : List Expr), (∀ e ∈ es, e.EoiFree) → ∀ cur a,
    ReadsNoEoi a (buildSeq es cur a).2
  | [], _, cur, a => .of_eq rfl
  | e :: es, h, cur, a =>
    ((readsNoEoi_build e (h e (by simp)) a).trans (.of_eq rfl)).trans
      (readsNoEoi_buildSeq es (fun e he => h e (by simp [he])) _ _)

theorem readsNoEoi_buildAlt : ∀ (es : List Expr), (∀ e ∈ es, e.EoiFree) → ∀ start stop a,
    ReadsNoEoi a (buildAlt es start stop a)
  | [], _, start, stop, a => .of_eq rfl
  | e :: es, h, start, stop, a =>
    ((readsNoEoi_build e (h e (by simp)) a).trans (.of_eq rfl)).trans
      (readsNoEoi_buildAlt es (fun e he => h e (by simp [he])) _ _ _)

end

/-- Reading the end of the input leads to `t`, and nothing leads on from there. -/
def EoiStops (ds : SilentMoves) (dr : ReadingMoves) (t : Nat) : Prop :=
  ∀ m ∈ dr, endMark ∈ m.2.1 → m.2.2 = t ∧ (∀ n ∈ ds, n.1 ≠ t) ∧ ∀ n ∈ dr, n.1 ≠ t

theorem Adds.unique {a b : Nfa} {ds ds' : SilentMoves} {dr dr' : ReadingMoves}
    (h : Adds a b ds dr) (h' : Adds a b ds' dr') : ds = ds' ∧ dr = dr' :=
  ⟨List.append_cancel_right (h.silent_eq.symm.trans h'.silent_eq),
    List.append_cancel_right (h.reading_eq.symm.trans h'.reading_eq)⟩

theorem buildSeq_append (es : List Expr) (e : Expr) : ∀ (cur : Nat) (a : Nfa),
    buildSeq (es ++ [e]) cur a = ((e.build (buildSeq es cur a).2).1.stop,
      (e.build (buildSeq es cur a).2).2.addSilent (buildSeq es cur a).1
        (e.build (buildSeq es cur a).2).1.start) := by
  induction es with
  | nil => exact fun cur a => rfl
  | cons e' es ih =>
    intro cur a
    exact ih (e'.build a).1.stop ((e'.build a).2.addSilent cur (e'.build a).1.start)

theorem eoiStops_of_readsNoEoi {a b : Nfa} {ds : SilentMoves} {dr : ReadingMoves}
    (h : ReadsNoEoi a b) (hadds : Adds a b ds dr) (t : Nat) : EoiStops ds dr t := by
  obtain ⟨dr', hdr', hfree⟩ := h
  have heq : dr = dr' := List.append_cancel_right (hadds.reading_eq.symm.trans hdr')
  subst heq
  exact fun m hm hmem => absurd hmem (hfree m hm)

/-- **Where the end of the input comes last, it leads to the exit of the fragment.** -/
theorem eoiStops_build {e : Expr} (h : e.EoiLast) : ∀ (a : Nfa) {ds : SilentMoves}
    {dr : ReadingMoves}, Adds a (e.build a).2 ds dr → EoiStops ds dr (e.build a).1.stop := by
  induction h with
  | @free e h => exact fun a _ _ hadds => eoiStops_of_readsNoEoi (readsNoEoi_build e h a) hadds _
  | eoi =>
    intro a ds dr hadds
    rw [build_chars] at hadds ⊢
    obtain ⟨rfl, rfl⟩ : ds = [] ∧ dr = [(a.size, .single endMark, a.size + 1)] :=
      hadds.unique ⟨by simp [Nfa.addReading, Nfa.addState]; omega, rfl, rfl⟩
    intro m hm _
    rw [List.mem_singleton.mp hm]
    exact ⟨rfl, by simp, by simp⟩
  | @seq init last hinit _ ih =>
    intro a ds dr hadds
    rw [build_seq, buildSeq_append] at hadds ⊢
    obtain ⟨ds₁, dr₁, hadds₁, hfrom, hseg₁⟩ :=
      buildSeq_segment init a.size a.addState.2 (Nat.lt_succ_self _)
    set cur := (buildSeq init a.size a.addState.2).1
    set b := (buildSeq init a.size a.addState.2).2
    have hsize : a.size < b.size := hadds₁.size_le
    have hcur : cur < b.size := by
      rcases hfrom with heq | hin
      · rw [heq]
        exact hsize
      · exact hin.2
    obtain ⟨hstart, hstop, ds₂, dr₂, hadds₂, hseg₂⟩ := builds_build last b
    have hall := ((Adds.refl a).addState.trans hadds₁).trans
      (hadds₂.addSilent cur (last.build b).1.start)
    obtain ⟨rfl, rfl⟩ := hadds.unique hall
    have hlast := ih b hadds₂
    have hfree := eoiStops_of_readsNoEoi (readsNoEoi_buildSeq init hinit a.size a.addState.2) hadds₁
    simp only [List.append_nil] at hlast ⊢
    intro m hm hmem
    -- the moves of the other items begin before the exit
    have hold : ∀ x, From a.size a.addState.2.size b.size x → x ≠ (last.build b).1.stop := by
      rintro x (rfl | hx)
      · have := hstop.1
        omega
      · have := hx.2
        have := hstop.1
        omega
    rcases List.mem_append.mp hm with hm | hm
    · obtain ⟨heq, hsilent, hread⟩ := hlast m hm hmem
      refine ⟨heq, ?_, ?_⟩
      · refine List.forall_mem_append.mpr ⟨List.forall_mem_cons.mpr ⟨?_, hsilent⟩, ?_⟩
        · have := hstop.1
          show cur ≠ _
          omega
        · exact fun n hn => hold _ (hseg₁.within.silent n hn).1
      · exact List.forall_mem_append.mpr ⟨hread, fun n hn => hold _ (hseg₁.within.read n hn).1⟩
    · obtain ⟨heq, -, hnone⟩ := hfree m.1 m hm hmem
      exact absurd rfl (hnone m hm)

/-! ## 2. Fragments side by side -/

/-- The rule of index `i` is matched between the entry and the exit of its fragment, which no other
rule shares. -/
structure HasRule (rs : List (Option RuleExpr)) (cs : List (Option CompiledRule)) (ds : SilentMoves)
    (dr : ReadingMoves) (i : Nat) (r : RuleExpr) (c : CompiledRule) : Prop where
  rule : rs[i]? = some (some r)
  lookahead : c.lookahead = r.lookahead
  sound : ∃ K : Nat → Language Nat, Labels K ds dr ∧
    K c.fragment.start ≤ (Expr.seq r.body).language ∧ 1 ≤ K c.fragment.stop ∧
    ∀ (j : Nat) (c' : CompiledRule), cs[j]? = some (some c') → j ≠ i → K c'.fragment.start = 0
  complete : ∀ w ∈ (Expr.seq r.body).language, Path ds dr c.fragment.start w c.fragment.stop

/-- What building all rules gives. -/
structure Joined (lo hi : Nat) (rs : List (Option RuleExpr)) (cs : List (Option CompiledRule))
    (ds : SilentMoves) (dr : ReadingMoves) : Prop where
  length_eq : cs.length = rs.length
  within : Within (Inside lo hi) (Inside lo hi) ds dr
  inside : ∀ {i : Nat} {c : CompiledRule}, cs[i]? = some (some c) →
    Inside lo hi c.fragment.start ∧ Inside lo hi c.fragment.stop
  hasRule : ∀ {i : Nat} {c : CompiledRule}, cs[i]? = some (some c) → ∃ r, HasRule rs cs ds dr i r c
  compiled : ∀ {i : Nat} {r : RuleExpr}, rs[i]? = some (some r) → ∃ c, cs[i]? = some (some c)
  apart : ∀ {i j : Nat} {c c' : CompiledRule}, cs[i]? = some (some c) → cs[j]? = some (some c') →
    c.fragment.start = c'.fragment.start ∨ c.fragment.stop = c'.fragment.stop → i = j
  begun : ∃ J : Nat → Language Nat, Labels J ds dr ∧ (∀ x, 1 ≤ J x) ∧
    ∀ {i : Nat} {r : RuleExpr} {c : CompiledRule}, rs[i]? = some (some r) → cs[i]? = some (some c) →
      J c.fragment.start ≤ (Expr.seq r.body).begun
  eoi : (∀ r, some r ∈ rs → (Expr.seq r.body).EoiLast) → ∀ m ∈ dr, endMark ∈ m.2.1 →
    (∃ (i : Nat) (c : CompiledRule), cs[i]? = some (some c) ∧ m.2.2 = c.fragment.stop) ∧
      (∀ n ∈ ds, n.1 ≠ m.2.2) ∧ ∀ n ∈ dr, n.1 ≠ m.2.2

theorem Joined.nil (lo hi : Nat) : Joined lo hi [] [] [] [] where
  length_eq := rfl
  within := .nil _ _
  inside h := by simp at h
  hasRule h := by simp at h
  compiled h := by simp at h
  apart h := by simp at h
  begun := ⟨fun _ => 1, .nil _, fun _ => le_rfl, fun h => by simp at h⟩
  eoi _ := by simp

/-- A rule without a meaning in front. -/
theorem Joined.cons_none {lo hi : Nat} {rs : List (Option RuleExpr)}
    {cs : List (Option CompiledRule)} {ds : SilentMoves} {dr : ReadingMoves}
    (h : Joined lo hi rs cs ds dr) : Joined lo hi (none :: rs) (none :: cs) ds dr where
  length_eq := by simp [h.length_eq]
  within := h.within
  inside {i c} hc := by
    cases i with
    | zero => simp at hc
    | succ i => exact h.inside hc
  hasRule {i c} hc := by
    cases i with
    | zero => simp at hc
    | succ i =>
      obtain ⟨r, hr⟩ := h.hasRule (i := i) hc
      obtain ⟨K, hK, hstart, hstop, hother⟩ := hr.sound
      refine ⟨r, hr.rule, hr.lookahead, ⟨K, hK, hstart, hstop, ?_⟩, hr.complete⟩
      intro j c' hc' hne
      cases j with
      | zero => simp at hc'
      | succ j => exact hother j c' hc' (by omega)
  compiled {i r} hr := by
    cases i with
    | zero => simp at hr
    | succ i => exact h.compiled (i := i) hr
  apart {i j c c'} hc hc' heq := by
    cases i with
    | zero => simp at hc
    | succ i =>
      cases j with
      | zero => simp at hc'
      | succ j => rw [h.apart (i := i) (j := j) hc hc' heq]
  begun := by
    obtain ⟨J, hJ, hone, hle⟩ := h.begun
    refine ⟨J, hJ, hone, fun {i r c} hr hc => ?_⟩
    cases i with
    | zero => simp at hr
    | succ i => exact hle (i := i) hr hc
  eoi hlast m hm hmem := by
    obtain ⟨⟨i, c, hc, heq⟩, hrest⟩ := h.eoi (fun r hr => hlast r (by simp [hr])) m hm hmem
    exact ⟨⟨i + 1, c, hc, heq⟩, hrest⟩

/-- The fragment of a rule that is built before others, which get the states from `mid` on. -/
structure Front (lo mid : Nat) (r : RuleExpr) (c : CompiledRule) (ds : SilentMoves)
    (dr : ReadingMoves) : Prop where
  segment : Segment lo mid c.fragment.start c.fragment.stop (Expr.seq r.body).language
    (Expr.seq r.body).begun ds dr
  start : Inside lo mid c.fragment.start
  stop : Inside lo mid c.fragment.stop
  lookahead : c.lookahead = r.lookahead
  eoi : (Expr.seq r.body).EoiLast → EoiStops ds dr c.fragment.stop

theorem Front.within {lo mid : Nat} {r : RuleExpr} {c : CompiledRule} {ds : SilentMoves}
    {dr : ReadingMoves} (h : Front lo mid r c ds dr) :
    Within (Inside lo mid) (Inside lo mid) ds dr :=
  h.segment.within.mono (fun _ hx => hx.elim (fun heq => heq ▸ h.start) id) fun _ hx => hx

section Cons

variable {lo mid hi : Nat} {rs : List (Option RuleExpr)} {cs : List (Option CompiledRule)}
  {ds ds' : SilentMoves} {dr dr' : ReadingMoves} {r : RuleExpr} {c : CompiledRule}

/-- Labels of the rule in front and of the others. -/
theorem Joined.labels_cons (h : Joined mid hi rs cs ds' dr') (hfront : Front lo mid r c ds dr)
    {K K' : Nat → Language Nat} (hK : Labels K ds dr) (hK' : Labels K' ds' dr') :
    Labels (fun x => if x < mid then K x else K' x) (ds' ++ ds) (dr' ++ dr) := by
  have hlater : ∀ x, Inside mid hi x → (if x < mid then K x else K' x) = K' x :=
    fun x hx => if_neg (by have := hx.1; omega)
  have hearlier : ∀ x, Inside lo mid x → (if x < mid then K x else K' x) = K x :=
    fun x hx => if_pos hx.2
  exact .append (h.within.congr hK' (fun x hx => (hlater x hx).ge) hlater)
    (hfront.within.congr hK (fun x hx => (hearlier x hx).ge) hearlier)

/-- The rule in front is matched as before: the states of the others get no words. -/
theorem Joined.hasRule_front (h : Joined mid hi rs cs ds' dr') (hfront : Front lo mid r c ds dr) :
    HasRule (some r :: rs) (some c :: cs) (ds' ++ ds) (dr' ++ dr) 0 r c := by
  obtain ⟨K, hKs, hKt, hK⟩ := hfront.segment.sound
  refine ⟨rfl, hfront.lookahead, ⟨fun x => if x < mid then K x else 0, ?_, ?_, ?_, ?_⟩, ?_⟩
  · exact h.labels_cons hfront hK ⟨fun _ => le_rfl, fun _ _ hw => hw⟩
  · simpa [hfront.start.2] using hKs
  · simpa [hfront.stop.2] using hKt
  · intro j c' hc' hne
    cases j with
    | zero => exact absurd rfl hne
    | succ j =>
      have := (h.inside (i := j) hc').1.1
      exact if_neg (by omega)
  · exact fun w hw => (hfront.segment.complete w hw).mono (List.subset_append_right _ _)
      (List.subset_append_right _ _)

/-- So are the others: the states of the rule in front get no words. -/
theorem Joined.hasRule_later (h : Joined mid hi rs cs ds' dr') (hfront : Front lo mid r c ds dr)
    {i : Nat} {r' : RuleExpr} {c' : CompiledRule} (hc : cs[i]? = some (some c'))
    (hr : HasRule rs cs ds' dr' i r' c') :
    HasRule (some r :: rs) (some c :: cs) (ds' ++ ds) (dr' ++ dr) (i + 1) r' c' := by
  obtain ⟨K, hK, hKs, hKt, hother⟩ := hr.sound
  obtain ⟨hstart, hstop⟩ := h.inside hc
  refine ⟨hr.rule, hr.lookahead, ⟨fun x => if x < mid then 0 else K x, ?_, ?_, ?_, ?_⟩, ?_⟩
  · exact h.labels_cons hfront ⟨fun _ => le_rfl, fun _ _ hw => hw⟩ hK
  · simpa [Nat.not_lt.mpr hstart.1] using hKs
  · simpa [Nat.not_lt.mpr hstop.1] using hKt
  · intro j c'' hc' hne
    cases j with
    | zero =>
      simp only [List.getElem?_cons_zero, Option.some.injEq] at hc'
      subst hc'
      exact if_pos hfront.start.2
    | succ j =>
      have hmid := (h.inside (i := j) hc').1.1
      simp only [if_neg (Nat.not_lt.mpr hmid)]
      exact hother j c'' hc' (by omega)
  · exact fun w hw => (hr.complete w hw).mono (List.subset_append_left _ _)
      (List.subset_append_left _ _)

/-- The rule in front shares neither its entry nor its exit. -/
theorem Joined.apart_front (h : Joined mid hi rs cs ds' dr') (hfront : Front lo mid r c ds dr)
    {j : Nat} {c' : CompiledRule} (hc' : cs[j]? = some (some c')) :
    c.fragment.start < c'.fragment.start ∧ c.fragment.stop < c'.fragment.stop := by
  obtain ⟨hstart, hstop⟩ := h.inside hc'
  exact ⟨Nat.lt_of_lt_of_le hfront.start.2 hstart.1, Nat.lt_of_lt_of_le hfront.stop.2 hstop.1⟩

/-- What is begun in front is begun by the rule in front. -/
theorem Joined.begun_cons (h : Joined mid hi rs cs ds' dr') (hfront : Front lo mid r c ds dr) :
    ∃ J : Nat → Language Nat, Labels J (ds' ++ ds) (dr' ++ dr) ∧ (∀ x, 1 ≤ J x) ∧
      ∀ {i : Nat} {r' : RuleExpr} {c' : CompiledRule}, (some r :: rs)[i]? = some (some r') →
        (some c :: cs)[i]? = some (some c') →
        J c'.fragment.start ≤ (Expr.seq r'.body).begun := by
  obtain ⟨J, hJs, hone, hJ⟩ := hfront.segment.begun
  obtain ⟨J', hJ', hone', hle⟩ := h.begun
  refine ⟨fun x => if x < mid then J x else J' x, h.labels_cons hfront hJ hJ', fun x => ?_,
    fun {i r' c'} hr hc => ?_⟩
  · simp only
    split
    · exact hone x
    · exact hone' x
  · cases i with
    | zero =>
      simp only [List.getElem?_cons_zero, Option.some.injEq] at hr hc
      subst hr hc
      simpa only [if_pos hfront.start.2] using hJs
    | succ i =>
      have hmid := (h.inside (i := i) hc).1.1
      simpa only [if_neg (Nat.not_lt.mpr hmid)] using hle (i := i) hr hc

/-- The end of the input is read into the exits only. -/
theorem Joined.eoi_cons (h : Joined mid hi rs cs ds' dr') (hfront : Front lo mid r c ds dr)
    (hlast : ∀ r', some r' ∈ some r :: rs → (Expr.seq r'.body).EoiLast)
    {m : Nat × CharSet × Nat} (hm : m ∈ dr' ++ dr) (hmem : endMark ∈ m.2.1) :
    (∃ (i : Nat) (c' : CompiledRule), (some c :: cs)[i]? = some (some c') ∧
        m.2.2 = c'.fragment.stop) ∧
      (∀ n ∈ ds' ++ ds, n.1 ≠ m.2.2) ∧ ∀ n ∈ dr' ++ dr, n.1 ≠ m.2.2 := by
  rcases List.mem_append.mp hm with hm | hm
  · obtain ⟨⟨i, c', hc, heq⟩, hsilent, hread⟩ :=
      h.eoi (fun r hr => hlast r (by simp [hr])) m hm hmem
    have htarget := (h.within.read m hm).2.1
    refine ⟨⟨i + 1, c', hc, heq⟩, List.forall_mem_append.mpr ⟨hsilent, fun n hn => ?_⟩,
      List.forall_mem_append.mpr ⟨hread, fun n hn => ?_⟩⟩
    · have := (hfront.within.silent n hn).1.2
      omega
    · have := (hfront.within.read n hn).1.2
      omega
  · obtain ⟨heq, hsilent, hread⟩ := hfront.eoi (hlast r (by simp)) m hm hmem
    have hstop := hfront.stop.2
    rw [heq]
    refine ⟨⟨0, c, rfl, rfl⟩, List.forall_mem_append.mpr ⟨fun n hn => ?_, hsilent⟩,
      List.forall_mem_append.mpr ⟨fun n hn => ?_, hread⟩⟩
    · have := (h.within.silent n hn).1.1
      omega
    · have := (h.within.read n hn).1.1
      omega

/-- **A rule in front**, built before the others. -/
theorem Joined.cons_some (h : Joined mid hi rs cs ds' dr') (hfront : Front lo mid r c ds dr)
    (hle : mid ≤ hi) : Joined lo hi (some r :: rs) (some c :: cs) (ds' ++ ds) (dr' ++ dr) := by
  have hlo : lo ≤ mid := Nat.le_of_lt (Nat.lt_of_le_of_lt hfront.start.1 hfront.start.2)
  have hin : ∀ x, Inside lo mid x → Inside lo hi x :=
    fun x hx => ⟨hx.1, Nat.lt_of_lt_of_le hx.2 hle⟩
  have hin' : ∀ x, Inside mid hi x → Inside lo hi x := fun x hx => ⟨Nat.le_trans hlo hx.1, hx.2⟩
  refine ⟨by simp [h.length_eq], .append (h.within.mono hin' hin') (hfront.within.mono hin hin), ?_,
    ?_, ?_, ?_, h.begun_cons hfront, fun hlast m hm hmem => h.eoi_cons hfront hlast hm hmem⟩
  · intro i c' hc
    cases i with
    | zero =>
      simp only [List.getElem?_cons_zero, Option.some.injEq] at hc
      subst hc
      exact ⟨hin _ hfront.start, hin _ hfront.stop⟩
    | succ i => exact ⟨hin' _ (h.inside (i := i) hc).1, hin' _ (h.inside (i := i) hc).2⟩
  · intro i c' hc
    cases i with
    | zero =>
      simp only [List.getElem?_cons_zero, Option.some.injEq] at hc
      subst hc
      exact ⟨r, h.hasRule_front hfront⟩
    | succ i =>
      obtain ⟨r', hr⟩ := h.hasRule (i := i) hc
      exact ⟨r', h.hasRule_later hfront hc hr⟩
  · intro i r' hr
    cases i with
    | zero => exact ⟨c, rfl⟩
    | succ i => exact h.compiled (i := i) hr
  · intro i j c₁ c₂ h₁ h₂ heq
    cases i with
    | zero =>
      cases j with
      | zero => rfl
      | succ j =>
        simp only [List.getElem?_cons_zero, Option.some.injEq] at h₁
        subst h₁
        have := h.apart_front hfront (j := j) h₂
        omega
    | succ i =>
      cases j with
      | zero =>
        simp only [List.getElem?_cons_zero, Option.some.injEq] at h₂
        subst h₂
        have := h.apart_front hfront (j := i) h₁
        omega
      | succ j => rw [h.apart (i := i) (j := j) h₁ h₂ heq]

end Cons

theorem buildRules_joined : ∀ (rs : List (Option RuleExpr)) (a : Nfa), ∃ ds dr,
    Adds a (buildRules rs a).2 ds dr ∧ Joined a.size (buildRules rs a).2.size rs
      (buildRules rs a).1 ds dr
  | [], a => ⟨[], [], .refl a, .nil _ _⟩
  | none :: rest, a => by
    obtain ⟨ds, dr, hadds, hjoined⟩ := buildRules_joined rest a
    exact ⟨ds, dr, hadds, hjoined.cons_none⟩
  | some r :: rest, a => by
    obtain ⟨hstart, hstop, ds, dr, hadds, hseg⟩ := builds_build (.seq r.body) a
    obtain ⟨ds', dr', hadds', hjoined⟩ := buildRules_joined rest ((Expr.seq r.body).build a).2
    refine ⟨_, _, hadds.trans hadds', ?_⟩
    exact hjoined.cons_some (c := ⟨((Expr.seq r.body).build a).1, r.lookahead⟩)
      ⟨hseg, hstart, hstop, rfl, fun hlast => eoiStops_build hlast a hadds⟩ hadds'.size_le

/-! ## 3. Entries -/

/-- What adding entries gives: the entry of index `q` leads to the targets of index `q`. -/
structure AddsEntries (lists : List (List Nat)) (a b : Nfa) (starts : List Nat)
    (ds : SilentMoves) : Prop where
  starts_eq : starts = (List.range lists.length).map (a.size + ·)
  size_eq : b.size = a.size + lists.length
  silent_eq : b.silent = ds ++ a.silent
  reading_eq : b.reading = a.reading
  mem_iff : ∀ {s t : Nat}, (s, t) ∈ ds ↔ ∃ q ts, lists[q]? = some ts ∧ s = a.size + q ∧ t ∈ ts

theorem addEntry_eq (targets : List Nat) (a : Nfa) : addEntry targets a =
    (a.size, ⟨a.size + 1, (targets.map (a.size, ·)).reverse ++ a.silent, a.reading⟩) := by
  have hfold : ∀ (ts : List Nat) (b : Nfa), ts.foldl (fun b t => b.addSilent a.size t) b =
      { b with silent := (ts.map (a.size, ·)).reverse ++ b.silent } := by
    intro ts
    induction ts with
    | nil => exact fun b => rfl
    | cons t ts ih =>
      intro b
      rw [List.foldl_cons, ih]
      simp [Nfa.addSilent]
  simp only [addEntry, Nfa.addState, hfold]

theorem addEntries_adds : ∀ (lists : List (List Nat)) (a : Nfa), ∃ ds,
    AddsEntries lists a (addEntries lists a).2 (addEntries lists a).1 ds
  | [], a => ⟨[], rfl, rfl, rfl, rfl, by simp⟩
  | targets :: rest, a => by
    obtain ⟨ds, h⟩ := addEntries_adds rest (addEntry targets a).2
    have hsize : (addEntry targets a).2.size = a.size + 1 := by rw [addEntry_eq]
    have hstate : (addEntry targets a).1 = a.size := by rw [addEntry_eq]
    refine ⟨ds ++ (targets.map (a.size, ·)).reverse, ?_, ?_, ?_, ?_, ?_⟩
    · show (addEntry targets a).1 :: (addEntries rest (addEntry targets a).2).1 = _
      rw [h.starts_eq, hsize, hstate, List.length_cons, List.range_succ_eq_map]
      simp only [List.map_cons, List.map_map, Nat.add_zero]
      congr 1
      refine List.map_congr_left fun x _ => ?_
      simp only [Function.comp_apply]
      omega
    · show (addEntries rest (addEntry targets a).2).2.size = _
      rw [h.size_eq, hsize, List.length_cons]
      omega
    · show (addEntries rest (addEntry targets a).2).2.silent = _
      rw [h.silent_eq, addEntry_eq, List.append_assoc]
    · show (addEntries rest (addEntry targets a).2).2.reading = _
      rw [h.reading_eq, addEntry_eq]
    · intro s t
      rw [List.mem_append, h.mem_iff, hsize]
      constructor
      · rintro (⟨q, ts, hq, rfl, ht⟩ | hm)
        · exact ⟨q + 1, ts, hq, by omega, ht⟩
        · simp only [List.mem_reverse, List.mem_map, Prod.mk.injEq] at hm
          obtain ⟨t, ht, rfl, rfl⟩ := hm
          exact ⟨0, targets, rfl, rfl, ht⟩
      · rintro ⟨q, ts, hq, rfl, ht⟩
        cases q with
        | zero =>
          simp only [List.getElem?_cons_zero, Option.some.injEq] at hq
          subst hq
          exact Or.inr (by simpa using ht)
        | succ q => exact Or.inl ⟨q, ts, hq, by omega, ht⟩

/-- **The exit of a rule is reached from an entry exactly by the words of the rule**, if the entry
leads to the rule. -/
theorem path_entry_iff {b : Nfa} {rs : List (Option RuleExpr)} {cs : List (Option CompiledRule)}
    {ds es : SilentMoves} {dr : ReadingMoves} {lists : List (List Nat)} {a : Nfa}
    {starts : List Nat} (hadds : Adds {} b ds dr) (hjoined : Joined 0 b.size rs cs ds dr)
    (hentries : AddsEntries lists b a starts es)
    (htargets : ∀ ts ∈ lists, ∀ t ∈ ts, ∃ (j : Nat) (c : CompiledRule),
      cs[j]? = some (some c) ∧ t = c.fragment.start)
    {q i : Nat} {ts : List Nat} (hq : lists[q]? = some ts) {c : CompiledRule}
    (hc : cs[i]? = some (some c)) {r : RuleExpr} (hr : rs[i]? = some (some r)) {w : List Nat} :
    Path a.silent a.reading (b.size + q) w c.fragment.stop ↔
      c.fragment.start ∈ ts ∧ w ∈ (Expr.seq r.body).language := by
  have hsilent : a.silent = es ++ ds := by
    rw [hentries.silent_eq, hadds.silent_eq, List.append_nil]
  have hreading : a.reading = dr := by
    rw [hentries.reading_eq, hadds.reading_eq, List.append_nil]
  obtain ⟨r', hrule⟩ := hjoined.hasRule hc
  obtain rfl : r' = r := by
    have := hrule.rule.symm.trans hr
    simpa using this
  rw [hsilent, hreading]
  constructor
  · intro hpath
    obtain ⟨K, hK, hKs, hKt, hother⟩ := hrule.sound
    -- an entry has the words of the rule if it leads to it, and none otherwise
    let entry (x : Nat) : Language Nat :=
      {w | w ∈ (Expr.seq r'.body).language ∧
        ∃ q ts, lists[q]? = some ts ∧ x = b.size + q ∧ c.fragment.start ∈ ts}
    have hlabels : Labels (fun x => if x < b.size then K x else entry x) (es ++ ds) dr := by
      rw [← List.nil_append dr]
      refine .append ⟨?_, by simp⟩ (hjoined.within.congr hK ?_ ?_)
      · intro s t hst
        obtain ⟨q', ts', hq', rfl, ht⟩ := hentries.mem_iff.mp hst
        obtain ⟨j, c', hc', rfl⟩ := htargets ts' (List.mem_of_getElem? hq') _ ht
        have hinside := (hjoined.inside hc').1.2
        simp only [if_pos hinside, if_neg (Nat.not_lt.mpr (Nat.le_add_right b.size q'))]
        by_cases hji : j = i
        · subst hji
          obtain rfl : c' = c := by simpa using hc'.symm.trans hc
          exact fun w hw => ⟨hKs hw, q', ts', hq', rfl, ht⟩
        · rw [hother j c' hc' hji]
          exact bot_le
      · exact fun x hx => (if_pos hx.2).ge
      · exact fun x hx => if_pos hx.2
    have hstop := (hjoined.inside hc).2.2
    have hmem := hpath.append_mem hlabels (v := []) (by
      simp only [if_pos hstop]
      exact hKt Language.nil_mem_one)
    simp only [if_neg (Nat.not_lt.mpr (Nat.le_add_right b.size q)), List.append_nil] at hmem
    obtain ⟨hw, q', ts', hq', heq, hts⟩ := hmem
    obtain rfl : q' = q := by omega
    obtain rfl : ts' = ts := by simpa using hq'.symm.trans hq
    exact ⟨hts, hw⟩
  · rintro ⟨hts, hw⟩
    refine .silent (List.mem_append_left _ (hentries.mem_iff.mpr ⟨q, ts, hq, rfl, hts⟩)) ?_
    exact (hrule.complete w hw).mono (List.subset_append_right _ _) (List.Subset.refl _)

/-- **What is read from an entry is begun by a rule that the entry leads to.** -/
theorem path_entry_begun {b : Nfa} {rs : List (Option RuleExpr)} {cs : List (Option CompiledRule)}
    {ds es : SilentMoves} {dr : ReadingMoves} {lists : List (List Nat)} {a : Nfa}
    {starts : List Nat} (hadds : Adds {} b ds dr) (hjoined : Joined 0 b.size rs cs ds dr)
    (hentries : AddsEntries lists b a starts es)
    (htargets : ∀ ts ∈ lists, ∀ t ∈ ts, ∃ (j : Nat) (c : CompiledRule),
      cs[j]? = some (some c) ∧ t = c.fragment.start)
    {q t : Nat} {ts : List Nat} (hq : lists[q]? = some ts) {w : List Nat}
    (hpath : Path a.silent a.reading (b.size + q) w t) :
    w = [] ∨ ∃ (i : Nat) (r : RuleExpr) (c : CompiledRule), rs[i]? = some (some r) ∧
      cs[i]? = some (some c) ∧ c.fragment.start ∈ ts ∧ w ∈ (Expr.seq r.body).begun := by
  have hsilent : a.silent = es ++ ds := by
    rw [hentries.silent_eq, hadds.silent_eq, List.append_nil]
  have hreading : a.reading = dr := by
    rw [hentries.reading_eq, hadds.reading_eq, List.append_nil]
  rw [hsilent, hreading] at hpath
  obtain ⟨J, hJ, hone, hle⟩ := hjoined.begun
  -- an entry has the words that the rules it leads to can begin with
  let entry (x : Nat) : Language Nat :=
    {w | w = [] ∨ ∃ q ts, lists[q]? = some ts ∧ x = b.size + q ∧ ∃ (i : Nat) (r : RuleExpr)
      (c : CompiledRule), rs[i]? = some (some r) ∧ cs[i]? = some (some c) ∧
        c.fragment.start ∈ ts ∧ w ∈ (Expr.seq r.body).begun}
  have hlabels : Labels (fun x => if x < b.size then J x else entry x) (es ++ ds) dr := by
    rw [← List.nil_append dr]
    refine .append ⟨?_, by simp⟩
      (hjoined.within.congr hJ (fun x hx => (if_pos hx.2).ge) fun x hx => if_pos hx.2)
    intro s t hst
    obtain ⟨q', ts', hq', rfl, ht⟩ := hentries.mem_iff.mp hst
    obtain ⟨j, c, hc, rfl⟩ := htargets ts' (List.mem_of_getElem? hq') _ ht
    obtain ⟨r, hrule⟩ := hjoined.hasRule hc
    simp only [if_pos (hjoined.inside hc).1.2,
      if_neg (Nat.not_lt.mpr (Nat.le_add_right b.size q'))]
    exact fun w hw => Or.inr ⟨q', ts', hq', rfl, j, r, c, hrule.rule, hc, ht, hle hrule.rule hc hw⟩
  have hmem := hpath.append_mem hlabels (v := []) (by
    split
    · exact hone t Language.nil_mem_one
    · exact Or.inl rfl)
  simp only [if_neg (Nat.not_lt.mpr (Nat.le_add_right b.size q)), List.append_nil] at hmem
  refine Or.imp_right ?_ hmem
  rintro ⟨q', ts', hq', heq, hrule⟩
  obtain rfl : q' = q := by omega
  obtain rfl : ts' = ts := by simpa using hq'.symm.trans hq
  exact hrule

end GrammarTables.Lexical
