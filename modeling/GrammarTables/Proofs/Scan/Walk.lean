import GrammarTables.Scan.Scanner
import GrammarTables.Proofs.Lexical.Failure
import GrammarTables.Proofs.Lexical.Recognizer
/-
# A walk finds the longest match

What a walk through the tables of a reader (`Represents`) matches is something that a rule fits
(`walk_fits`).  Where the reader does not read the end of the input a second time (`ReadsOnce`),
the walk ends with the longest text that a rule fits, and among the rules that fit it with the
best; where none fits, it ends with nothing (`walk_finds`).  For a recognizer this is so whatever
the text, and the walk ends with the end of the input if there was nothing to read
(`walk_walksTo`).

Going on beyond an accepted text without a mark is safe because the next state is one that cannot
fail: whatever follows, a longer text fits (`exists_fits_of_unmarked`).
-/

namespace GrammarTables.Scan

open Lexical (LexTable Cell eoiClass Matcher Reader Recognizer)

/-! ## 1. What fits -/

/-- The rule `r` fits the first `k` code points of a text, the end of the input included. -/
def Fits (Word : Nat → List Nat → Prop) (Ahead : Nat → Nat → Prop) (text : List Nat) (r k : Nat) :
    Prop :=
  1 ≤ k ∧ k ≤ text.length ∧ Word r (text.take k) ∧ ∀ c ∈ text[k]?, ¬ Ahead r c

/-- A longer text wins, then the rule that ranks before the others. -/
def Best (before : Nat → Nat → Bool) (Word : Nat → List Nat → Prop) (Ahead : Nat → Nat → Prop)
    (text : List Nat) (r k : Nat) : Prop :=
  Fits Word Ahead text r k ∧ ∀ r' k', Fits Word Ahead text r' k' →
    k' < k ∨ k' = k ∧ (r' = r ∨ before r r' = true)

/-- The table has the cells of a matcher, for each character and for the end of the input. -/
structure Represents (t : LexTable) (m : Matcher) (classOf : Nat → Nat) : Prop where
  char : ∀ {s c : Nat}, s < m.dfa.size → c < endMark →
    t.cell s (t.classOf c) = m.cell m.mayFail s (classOf c)
  eoi : ∀ {s : Nat}, s < m.dfa.size → t.cell s eoiClass = m.cell m.mayFail s eoiClass

variable {t : LexTable} {m : Matcher} {before : Nat → Nat → Bool} {classOf : Nat → Nat}
  {start : Nat} {Word : Nat → List Nat → Prop} {Ahead : Nat → Nat → Prop}

section Fits

variable {u v : List Nat} {r k : Nat}

theorem fits_here {c : Nat} (hu : u ≠ []) : Fits Word Ahead (u ++ c :: v) r u.length ↔
    Word r u ∧ ¬ Ahead r c := by
  have hpos : 1 ≤ u.length := List.length_pos_iff.mpr hu
  simp [Fits, hpos]

theorem fits_all (hu : u ≠ []) : Fits Word Ahead u r u.length ↔ Word r u := by
  have hpos : 1 ≤ u.length := List.length_pos_iff.mpr hu
  simp [Fits, hpos]

/-- A longer match reads on. -/
theorem Fits.word_of_lt {c : Nat} (h : Fits Word Ahead (u ++ c :: v) r k) (hlt : u.length < k) :
    ∃ v', Word r (u ++ c :: v') := by
  refine ⟨v.take (k - u.length - 1), ?_⟩
  have htake : (u ++ c :: v).take k = u ++ c :: v.take (k - u.length - 1) := by
    rw [List.take_append, List.take_of_length_le (Nat.le_of_lt hlt),
      show k - u.length = k - u.length - 1 + 1 by omega, List.take_succ_cons,
      Nat.add_sub_cancel]
  exact htake ▸ h.2.2.1

end Fits

/-! ## 2. One state -/

section State

variable (h : Reader m before classOf start Word Ahead) {u : List Nat} {s c : Nat}
  (hat : m.At classOf start u s) (hu : ∀ c ∈ u, c ≤ endMark) (hc : c ≤ endMark)

include h hat hu in
theorem lt_size_of_at : s < m.dfa.size := by
  rcases List.eq_nil_or_concat u with rfl | ⟨init, last, rfl⟩
  · rw [Lexical.Matcher.at_nil.mp hat]
    exact h.start_lt
  · rw [List.concat_eq_append] at hat
    obtain ⟨n, -, hstep⟩ := Lexical.Matcher.at_snoc.mp hat
    exact h.step_lt hstep

include h hat hu hc in
/-- What a state accepts before a code point is the best rule that fits there. -/
theorem acceptAt_eq_some {r : Nat} (haccept : m.acceptAt s (classOf c) = some r) :
    u ≠ [] ∧ Word r u ∧ ¬ Ahead r c ∧
      ∀ r', Word r' u → ¬ Ahead r' c → r' = r ∨ before r r' = true := by
  have hne : u ≠ [] := by
    rintro rfl
    rw [Lexical.Matcher.at_nil.mp hat, Matcher.acceptAt, h.accepts_start] at haccept
    cases haccept
  obtain ⟨hr, pre, post, hsplit, hbefore⟩ := List.find?_eq_some_iff_append.mp haccept
  have hmem : ∀ {x : Nat}, x ∈ m.dfa.acceptsOf s ↔ Word x u := h.accepts hat hu hne
  have hahead : ∀ {x : Nat}, m.excludes x (classOf c) = true ↔ Ahead x c := h.excludes hc
  refine ⟨hne, hmem.mp (by simp [hsplit]), ?_, ?_⟩
  · rw [← hahead]
    simpa using hr
  · intro r' hword hnot
    have hr' := hmem.mpr hword
    rw [hsplit, List.mem_append, List.mem_cons] at hr'
    rcases hr' with hpre | rfl | hpost
    · have hexcluded := hbefore r' hpre
      simp only [Bool.not_not] at hexcluded
      exact absurd (hahead.mp hexcluded) hnot
    · exact Or.inl rfl
    · have hsorted := h.sorted (lt_size_of_at h hat hu)
      rw [hsplit] at hsorted
      exact Or.inr ((List.pairwise_cons.mp (List.pairwise_append.mp hsorted).2.1).1 r' hpost)

include h hat hu hc in
theorem acceptAt_eq_none (haccept : m.acceptAt s (classOf c) = none) (hne : u ≠ []) {r : Nat}
    (hword : Word r u) : Ahead r c := by
  have hmem := (h.accepts hat hu hne).mpr hword
  have hfind := List.find?_eq_none.mp haccept r hmem
  exact (h.excludes hc).mp (by simpa using hfind)

include h hat hu hc in
/-- Where no transition is left, nothing longer fits. -/
theorem le_of_step_none (hstep : m.dfa.step s (classOf c) = none) {v : List Nat} {r k : Nat}
    (hfits : Fits Word Ahead (u ++ c :: v) r k) : k ≤ u.length := by
  by_contra hlt
  obtain ⟨v', hword⟩ := hfits.word_of_lt (Nat.not_le.mp hlt)
  exact h.stuck hat hu hc hstep hword

include h hat hu hc in
/-- What is accepted where no transition is left is the best match. -/
theorem best_of_stop {r : Nat} (haccept : m.acceptAt s (classOf c) = some r) {v : List Nat}
    (hlast : ∀ {r' k' : Nat}, Fits Word Ahead (u ++ c :: v) r' k' → k' ≤ u.length) :
    Best before Word Ahead (u ++ c :: v) r u.length := by
  obtain ⟨hne, hword, hahead, hbest⟩ := acceptAt_eq_some h hat hu hc haccept
  refine ⟨(fits_here hne).mpr ⟨hword, hahead⟩, ?_⟩
  intro r' k' hfits
  rcases Nat.lt_or_eq_of_le (hlast hfits) with hlt | rfl
  · exact Or.inl hlt
  · obtain ⟨hword', hahead'⟩ := (fits_here hne).mp hfits
    exact Or.inr ⟨rfl, hbest r' hword' hahead'⟩

include h hat hu hc in
/-- Where nothing is accepted, what fits is longer. -/
theorem lt_of_acceptAt_none (haccept : m.acceptAt s (classOf c) = none) {v : List Nat} {r k : Nat}
    (hfits : Fits Word Ahead (u ++ c :: v) r k) (hle : u.length ≤ k) : u.length < k := by
  rcases Nat.lt_or_eq_of_le hle with hlt | rfl
  · exact hlt
  · have hne : u ≠ [] := List.length_pos_iff.mp hfits.1
    obtain ⟨hword, hahead⟩ := (fits_here hne).mp hfits
    exact absurd (acceptAt_eq_none h hat hu hc haccept hne hword) hahead

end State

/-! ## 3. The end of the input -/

section End

variable (h : Reader m before classOf start Word Ahead) (ht : Represents t m classOf)
  {u : List Nat} {s : Nat} (hat : m.At classOf start (u ++ [endMark]) s)
  (hu : ∀ c ∈ u, c ≤ endMark)

include hu in
theorem le_endMark_snoc : ∀ c ∈ u ++ [endMark], c ≤ endMark := by
  intro c hc
  rcases List.mem_append.mp hc with hc | hc
  · exact hu c hc
  · exact Nat.le_of_eq (List.mem_singleton.mp hc)

include h in
theorem not_ahead_endMark (r : Nat) : ¬ Ahead r endMark :=
  fun hr => Nat.lt_irrefl _ (h.ahead_lt hr)

include h ht hat hu in
/-- **Reading the end of the input** is a match of everything if some rule matches it, and the walk
is stuck otherwise.  Here nothing more can be read. -/
theorem afterEnd_cases (hstop : m.dfa.step s (classOf endMark) = none) (length : Nat) :
    (∃ r, afterEnd t s length = .accepted (r + 1) length true ∧
      Best before Word Ahead (u ++ [endMark]) r (u ++ [endMark]).length) ∨
    afterEnd t s length = .stuck ∧ m.acceptAt s (classOf endMark) = none ∧
      ∀ r, ¬ Word r (u ++ [endMark]) := by
  have hu' := le_endMark_snoc hu
  have hne : u ++ [endMark] ≠ [] := by simp
  rw [afterEnd, ht.eoi (lt_size_of_at h hat hu'), Matcher.cell, ← h.classOf_endMark, hstop]
  cases haccept : m.acceptAt s (classOf endMark) with
  | none =>
    refine Or.inr ⟨?_, rfl, fun r hword => ?_⟩
    · simp [h.not_isStart hat hu' hne]
    · exact not_ahead_endMark h r (acceptAt_eq_none h hat hu' (Nat.le_refl _) haccept hne hword)
  | some r =>
    obtain ⟨-, hword, -, hbest⟩ := acceptAt_eq_some h hat hu' (Nat.le_refl _) haccept
    refine Or.inl ⟨r, rfl, (fits_all hne).mpr hword, ?_⟩
    intro r' k' hfits
    rcases Nat.lt_or_eq_of_le hfits.2.1 with hlt | rfl
    · exact Or.inl hlt
    · exact Or.inr ⟨rfl, hbest r' ((fits_all hne).mp hfits) (not_ahead_endMark h r')⟩

end End

/-! ## 4. States that cannot fail -/

/-- A text with the end of the input. -/
def codes (v : List Char) : List Nat := v.map Char.toNat ++ [endMark]

theorem codes_nil : codes [] = [endMark] := rfl

theorem codes_cons (c : Char) (v : List Char) : codes (c :: v) = c.toNat :: codes v := rfl

/-- What has been read and what comes next. -/
theorem append_codes_cons (u : List Nat) (c : Char) (v : List Char) :
    u ++ codes (c :: v) = (u ++ [c.toNat]) ++ codes v := by
  rw [codes_cons, List.append_assoc, List.singleton_append]

theorem le_endMark_snoc_char {u : List Nat} (hu : ∀ c ∈ u, c ≤ endMark) (c : Char) :
    ∀ x ∈ u ++ [c.toNat], x ≤ endMark := by
  intro x hx
  rcases List.mem_append.mp hx with hx | hx
  · exact hu x hx
  · rw [List.mem_singleton.mp hx]
    exact Nat.le_of_lt (toNat_lt_endMark c)

/-- In a state that is not stuck before a code point, something is accepted or read. -/
theorem accept_or_step (h : Reader m before classOf start Word Ahead) {u : List Nat}
    {s c : Nat} (hat : m.At classOf start u s) (hu : ∀ c ∈ u, c ≤ endMark) (hne : u ≠ [])
    (hc : c ≤ endMark) (hunmarked : m.mayFail.getD s false = false) :
    (∃ r, m.acceptAt s (classOf c) = some r) ∨
      ∃ s', m.dfa.step s (classOf c) = some s' ∧ m.mayFail.getD s' false = false := by
  obtain ⟨hstuck, hnext⟩ :=
    Matcher.mayFail_step (lt_size_of_at h hat hu) (h.classes hc) hunmarked
  cases haccept : m.acceptAt s (classOf c) with
  | some r => exact Or.inl ⟨r, rfl⟩
  | none =>
    cases hstep : m.dfa.step s (classOf c) with
    | some s' => exact Or.inr ⟨s', rfl, hnext s' (h.step_lt hstep) haccept hstep⟩
    | none => simp [Matcher.stuckAt, haccept, hstep, h.not_isStart hat hu hne] at hstuck

/-- From `start`, the end of the input is not read a second time after a text and its end. -/
def ReadsOnce (m : Matcher) (classOf : Nat → Nat) (start : Nat) (text : List Nat) : Prop :=
  ∀ n, ¬ m.At classOf start (text ++ [endMark]) n

theorem ReadsOnce.step_eq_none {u : List Nat} {s : Nat} (h : ReadsOnce m classOf start u)
    (hat : m.At classOf start u s) : m.dfa.step s (classOf endMark) = none := by
  cases hstep : m.dfa.step s (classOf endMark) with
  | none => rfl
  | some n => exact absurd (Matcher.at_snoc.mpr ⟨s, hat, hstep⟩) (h n)

/-- **From a state that cannot fail, something fits whatever follows.** -/
theorem exists_fits_of_unmarked (h : Reader m before classOf start Word Ahead)
    (v : List Char) : ∀ {u : List Nat} {s : Nat}, m.At classOf start u s →
    (∀ c ∈ u, c ≤ endMark) → u ≠ [] → m.mayFail.getD s false = false →
    ReadsOnce m classOf start (u ++ codes v) →
    ∃ r k, Fits Word Ahead (u ++ codes v) r k ∧ u.length ≤ k := by
  induction v with
  | nil =>
    intro u s hat hu hne hunmarked honce
    rw [codes_nil] at honce ⊢
    rcases accept_or_step h hat hu hne (Nat.le_refl _) hunmarked with
      ⟨r, haccept⟩ | ⟨s', hstep, hunmarked'⟩
    · obtain ⟨-, hword, hahead, -⟩ := acceptAt_eq_some h hat hu (Nat.le_refl _) haccept
      exact ⟨r, u.length, (fits_here hne).mpr ⟨hword, hahead⟩, Nat.le_refl _⟩
    · -- the end of the input was read, and is not read again
      have hat' := Matcher.at_snoc.mpr ⟨s, hat, hstep⟩
      have hne' : u ++ [endMark] ≠ [] := by simp
      rcases accept_or_step h hat' (le_endMark_snoc hu) hne' (Nat.le_refl _) hunmarked' with
        ⟨r, haccept⟩ | ⟨s'', hstep', -⟩
      · obtain ⟨-, hword, -⟩ :=
          acceptAt_eq_some h hat' (le_endMark_snoc hu) (Nat.le_refl _) haccept
        exact ⟨r, _, (fits_all hne').mpr hword, by simp⟩
      · rw [honce.step_eq_none hat'] at hstep'
        cases hstep'
  | cons c v ih =>
    intro u s hat hu hne hunmarked honce
    rw [append_codes_cons] at honce
    have hc := Nat.le_of_lt (toNat_lt_endMark c)
    rcases accept_or_step h hat hu hne hc hunmarked with ⟨r, haccept⟩ | ⟨s', hstep, hunmarked'⟩
    · obtain ⟨-, hword, hahead, -⟩ := acceptAt_eq_some h hat hu hc haccept
      exact ⟨r, u.length, (fits_here hne).mpr ⟨hword, hahead⟩, Nat.le_refl _⟩
    · obtain ⟨r, k, hfits, hle⟩ := ih (Matcher.at_snoc.mpr ⟨s, hat, hstep⟩)
        (le_endMark_snoc_char hu c) (by simp) hunmarked' honce
      rw [append_codes_cons]
      refine ⟨r, k, hfits, ?_⟩
      rw [List.length_append] at hle
      exact Nat.le_of_succ_le hle

/-! ## 5. The walk -/

/-- The match of the rule `r` with the first `k` code points of a text of `n` characters. -/
def IsMatch (r k n : Nat) (m : Match) : Prop :=
  m.action = r + 1 ∧ m.length = min k n ∧ (m.atEnd = true ↔ k = n + 1)

theorem isMatch_of_le {r k n : Nat} (h : k ≤ n) (back : Bool) :
    IsMatch r k n ⟨r + 1, k, false, back⟩ := by
  refine ⟨rfl, (Nat.min_eq_left h).symm, ?_⟩
  simp only [Bool.false_eq_true, false_iff]
  omega

/-- What a walk over `v` finds, after `u` has been read and some texts have been marked. -/
structure Finds (before : Nat → Nat → Bool) (Word : Nat → List Nat → Prop)
    (Ahead : Nat → Nat → Prop) (u : List Nat) (v : List Char) (marks : List Mark) (w : Walk) :
    Prop where
  /-- The best match, if it is not shorter than what has been read. -/
  found : (∃ r k, Fits Word Ahead (u ++ codes v) r k ∧ u.length ≤ k) →
    ∃ r k match', Best before Word Ahead (u ++ codes v) r k ∧ u.length ≤ k ∧
      w.match? = some match' ∧ IsMatch r k (u.length + v.length) match'
  /-- Otherwise the last mark. -/
  missed : (¬ ∃ r k, Fits Word Ahead (u ++ codes v) r k ∧ u.length ≤ k) → u ≠ [] ∨ v ≠ [] →
    w.match? = marks.head?.map fun m => ⟨m.action, m.length, false, true⟩

/-- What a walk comes to: it finds the best match, or else the end of the input. -/
structure WalksTo (before : Nat → Nat → Bool) (Word : Nat → List Nat → Prop)
    (Ahead : Nat → Nat → Prop) (u : List Nat) (v : List Char) (marks : List Mark) (w : Walk) :
    Prop extends Finds before Word Ahead u v marks w where
  /-- The end of the input, if there was nothing to read. -/
  ended : (¬ ∃ r k, Fits Word Ahead (u ++ codes v) r k ∧ u.length ≤ k) → u = [] → v = [] →
    w.match? = some ⟨0, 0, false, false⟩

namespace Finds

variable {u : List Nat} {v : List Char} {marks : List Mark} {w : Walk}

/-- A walk that found a match. -/
theorem of_best {r k : Nat} {match' : Match} (hbest : Best before Word Ahead (u ++ codes v) r k)
    (hle : u.length ≤ k) (hmatch : w.match? = some match')
    (his : IsMatch r k (u.length + v.length) match') :
    Finds before Word Ahead u v marks w where
  found _ := ⟨r, k, match', hbest, hle, hmatch, his⟩
  missed hnone := absurd ⟨r, k, hbest.1, hle⟩ hnone

/-- A walk that got stuck, or stopped at the end of the input. -/
theorem of_none (hnone : ∀ {r k : Nat}, Fits Word Ahead (u ++ codes v) r k → ¬ u.length ≤ k)
    (hmatch : u ≠ [] ∨ v ≠ [] →
      w.match? = marks.head?.map fun m => ⟨m.action, m.length, false, true⟩) :
    Finds before Word Ahead u v marks w where
  found := fun ⟨_, _, hfits, hle⟩ => absurd hle (hnone hfits)
  missed _ := hmatch

/-- A walk that goes on without a mark, if nothing ends here or something longer fits. -/
theorem of_goto {c : Char} (h : Finds before Word Ahead (u ++ [c.toNat]) v marks w)
    (hlonger : (∃ r k, Fits Word Ahead (u ++ codes (c :: v)) r k ∧ u.length ≤ k) →
      ∃ r k, Fits Word Ahead (u ++ codes (c :: v)) r k ∧ u.length < k) :
    Finds before Word Ahead u (c :: v) marks w := by
  rw [append_codes_cons] at hlonger
  have hlength : (u ++ [c.toNat]).length = u.length + 1 := by simp
  have htotal : (u ++ [c.toNat]).length + v.length = u.length + (c :: v).length := by
    simp
    omega
  refine { found := ?_, missed := ?_ }
  · rw [append_codes_cons]
    intro hfits
    obtain ⟨r, k, hfits, hlt⟩ := hlonger hfits
    obtain ⟨r, k, match', hbest, hle, hmatch, his⟩ := h.found ⟨r, k, hfits, by omega⟩
    exact ⟨r, k, match', hbest, by omega, hmatch, htotal ▸ his⟩
  · rw [append_codes_cons]
    intro hnone _
    refine h.missed (fun ⟨r, k, hfits, hle⟩ => hnone ⟨r, k, hfits, by omega⟩) (Or.inl (by simp))

/-- A walk that goes on with a mark for the best rule that fits here. -/
theorem of_backtrack {c : Char} {r bytes s : Nat}
    (h : Finds before Word Ahead (u ++ [c.toNat]) v (⟨u.length, bytes, r + 1, s⟩ :: marks) w)
    (hbest : (∀ {r' k' : Nat}, Fits Word Ahead (u ++ codes (c :: v)) r' k' → k' ≤ u.length) →
      Best before Word Ahead (u ++ codes (c :: v)) r u.length) :
    Finds before Word Ahead u (c :: v) marks w := by
  by_cases hlonger : ∃ r k, Fits Word Ahead (u ++ codes (c :: v)) r k ∧ u.length < k
  · obtain ⟨r, k, match', hbest, hle, hmatch, his⟩ := (h.of_goto fun _ => hlonger).found
      (hlonger.imp fun _ => .imp fun _ => .imp_right Nat.le_of_lt)
    exact .of_best hbest hle hmatch his
  · have hshort : ∀ {r' k' : Nat}, Fits Word Ahead (u ++ codes (c :: v)) r' k' → k' ≤ u.length :=
      fun hfits => Nat.not_lt.mp fun hlt => hlonger ⟨_, _, hfits, hlt⟩
    refine .of_best (hbest hshort) (Nat.le_refl _) (h.missed ?_ (Or.inl (by simp))) ?_
    · rintro ⟨r', k', hfits, hle⟩
      rw [← append_codes_cons] at hfits
      refine hlonger ⟨r', k', hfits, ?_⟩
      rwa [List.length_append] at hle
    · exact isMatch_of_le (Nat.le_add_right _ _) true

end Finds

section Walk

variable (h : Reader m before classOf start Word Ahead) (ht : Represents t m classOf)

include h ht in
/-- The walk at the end of the text. -/
theorem walk_nil {u : List Nat} {s : Nat} (bytes : Nat) (marks : List Mark)
    (hat : m.At classOf start u s) (hu : ∀ c ∈ u, c ≤ endMark)
    (honce : ReadsOnce m classOf start (u ++ codes [])) :
    Finds before Word Ahead u [] marks (walk t s u.length bytes marks []) := by
  rw [walk, ht.eoi (lt_size_of_at h hat hu), Matcher.cell, ← h.classOf_endMark]
  cases hstep : m.dfa.step s (classOf endMark) with
  | some s' =>
    have hat' := Matcher.at_snoc.mpr ⟨s, hat, hstep⟩
    have hstop := honce.step_eq_none hat'
    rcases afterEnd_cases h ht hat' hu hstop u.length with ⟨r, hafter, hbest⟩ | ⟨hafter, hnot, hnone⟩
    · have hfound : ∀ ms : List Mark,
          Finds before Word Ahead u [] marks ⟨ms, afterEnd t s' u.length⟩ := by
        intro ms
        rw [hafter]
        exact .of_best hbest (by simp) rfl ⟨rfl, by simp, by simp⟩
      cases m.acceptAt s (classOf endMark) with
      | some r =>
        by_cases hmarked : m.mayFail.getD s' false = true
        · simp only [hmarked, if_true]
          exact hfound _
        · simp only [hmarked]
          exact hfound _
      | none => exact hfound _
    · -- with the end of the input nothing matches, so the text without it is the longest
      have hshort : ∀ {r k : Nat}, Fits Word Ahead (u ++ codes []) r k → k ≤ u.length := by
        intro r k hfits
        by_contra hlt
        have hk : k = (u ++ codes []).length := by
          have := hfits.2.1
          simp only [codes_nil, List.length_append, List.length_singleton] at this ⊢
          omega
        subst hk
        exact hnone r ((fits_all (by simp)).mp hfits)
      cases haccept : m.acceptAt s (classOf endMark) with
      | some r =>
        by_cases hmarked : m.mayFail.getD s' false = true
        · simp only [hmarked, if_true, hafter]
          exact .of_best (best_of_stop h hat hu (Nat.le_refl _) haccept hshort) (Nat.le_refl _) rfl
            (isMatch_of_le (Nat.le_add_right _ _) true)
        · -- an unmarked state is not stuck
          rcases accept_or_step h hat' (le_endMark_snoc hu) (by simp) (Nat.le_refl _)
            (Bool.eq_false_iff.mpr hmarked) with ⟨r', haccept'⟩ | ⟨s'', hstep', -⟩
          · rw [hnot] at haccept'
            cases haccept'
          · rw [hstop] at hstep'
            cases hstep'
      | none =>
        simp only [hafter]
        refine .of_none (fun hfits hle => ?_) fun _ => rfl
        have hlt := lt_of_acceptAt_none h hat hu (Nat.le_refl _) haccept hfits hle
        exact absurd (hshort hfits) (Nat.not_le.mpr hlt)
  | none =>
    have hshort : ∀ {r k : Nat}, Fits Word Ahead (u ++ codes []) r k → k ≤ u.length :=
      le_of_step_none h hat hu (Nat.le_refl _) hstep
    cases haccept : m.acceptAt s (classOf endMark) with
    | some r =>
      exact .of_best (best_of_stop h hat hu (Nat.le_refl _) haccept hshort) (Nat.le_refl _) rfl
        (isMatch_of_le (Nat.le_add_right _ _) false)
    | none =>
      refine .of_none (fun hfits hle => ?_) fun hne => ?_
      · have hlt := lt_of_acceptAt_none h hat hu (Nat.le_refl _) haccept hfits hle
        exact absurd (hshort hfits) (Nat.not_le.mpr hlt)
      · have hne : u ≠ [] := hne.resolve_right (by simp)
        simp [h.not_isStart hat hu hne, Walk.match?]

include h ht in
/-- **What every walk finds**, by induction on the text that is left. -/
theorem walk_finds (v : List Char) : ∀ {u : List Nat} {s : Nat} (bytes : Nat) (marks : List Mark),
    m.At classOf start u s → (∀ c ∈ u, c ≤ endMark) → ReadsOnce m classOf start (u ++ codes v) →
    Finds before Word Ahead u v marks (walk t s u.length bytes marks v) := by
  induction v with
  | nil => exact fun bytes marks hat hu honce => walk_nil h ht bytes marks hat hu honce
  | cons c v ih =>
    intro u s bytes marks hat hu honce
    have hc := Nat.le_of_lt (toNat_lt_endMark c)
    rw [append_codes_cons] at honce
    have hread : ∀ {s' : Nat} (bytes : Nat) (marks : List Mark),
        m.dfa.step s (classOf c.toNat) = some s' →
        Finds before Word Ahead (u ++ [c.toNat]) v marks
          (walk t s' (u.length + 1) bytes marks v) := by
      intro s' bytes marks hstep
      have hnext := ih bytes marks (Matcher.at_snoc.mpr ⟨s, hat, hstep⟩)
        (le_endMark_snoc_char hu c) honce
      rwa [List.length_append] at hnext
    rw [walk, ht.char (lt_size_of_at h hat hu) (toNat_lt_endMark c), Matcher.cell]
    cases hstep : m.dfa.step s (classOf c.toNat) with
    | some s' =>
      cases haccept : m.acceptAt s (classOf c.toNat) with
      | some r =>
        by_cases hmarked : m.mayFail.getD s' false = true
        · simp only [hmarked, if_true]
          exact (hread _ _ hstep).of_backtrack (best_of_stop h hat hu hc haccept)
        · -- the acceptance need not be remembered: the next state cannot fail
          simp only [hmarked]
          refine (hread _ _ hstep).of_goto fun _ => ?_
          obtain ⟨r', k, hfits, hle⟩ := exists_fits_of_unmarked h v
            (Matcher.at_snoc.mpr ⟨s, hat, hstep⟩) (le_endMark_snoc_char hu c) (by simp)
            (Bool.eq_false_iff.mpr hmarked) honce
          rw [List.length_append] at hle
          exact ⟨r', k, append_codes_cons u c v ▸ hfits, hle⟩
      | none =>
        refine (hread _ _ hstep).of_goto ?_
        rintro ⟨r, k, hfits, hle⟩
        exact ⟨r, k, hfits, lt_of_acceptAt_none h hat hu hc haccept hfits hle⟩
    | none =>
      have hshort : ∀ {r k : Nat}, Fits Word Ahead (u ++ codes (c :: v)) r k → k ≤ u.length :=
        le_of_step_none h hat hu hc hstep
      cases haccept : m.acceptAt s (classOf c.toNat) with
      | some r =>
        exact .of_best (best_of_stop h hat hu hc haccept hshort) (Nat.le_refl _) rfl
          (isMatch_of_le (Nat.le_add_right _ _) false)
      | none =>
        refine .of_none (fun hfits hle => ?_) fun _ => ?_
        · have hlt := lt_of_acceptAt_none h hat hu hc haccept hfits hle
          exact absurd (hshort hfits) (Nat.not_le.mpr hlt)
        · simp [h.classOf_pos (toNat_lt_endMark c), Walk.match?]

include h ht in
/-- With nothing to read, the walk ends with the end of the input unless that is read too. -/
theorem walk_ended (bytes : Nat) (marks : List Mark)
    (hstep : m.dfa.step start (classOf endMark) = none) :
    (walk t start 0 bytes marks []).match? = some ⟨0, 0, false, false⟩ := by
  have hat : m.At classOf start [] start := Matcher.at_nil.mpr rfl
  rw [walk, ht.eoi (lt_size_of_at h hat (by simp)), Matcher.cell, ← h.classOf_endMark, hstep]
  simp [Matcher.acceptAt, h.accepts_start, h.isStart, h.classOf_endMark, Walk.match?]

end Walk

section Sound

variable (h : Reader m before classOf start Word Ahead) (ht : Represents t m classOf)

/-- The marks of a walk over a text of `n` characters are texts that rules fit. -/
def MarksFit (Word : Nat → List Nat → Prop) (Ahead : Nat → Nat → Prop) (text : List Nat) (n : Nat)
    (marks : List Mark) : Prop :=
  ∀ x ∈ marks, ∃ r, x.action = r + 1 ∧ x.length ≤ n ∧ Fits Word Ahead text r x.length

theorem MarksFit.cons {text : List Nat} {n length bytes r s : Nat} {marks : List Mark}
    (h : MarksFit Word Ahead text n marks) (hle : length ≤ n)
    (hfits : Fits Word Ahead text r length) :
    MarksFit Word Ahead text n (⟨length, bytes, r + 1, s⟩ :: marks) :=
  List.forall_mem_cons.mpr ⟨⟨r, rfl, hle, hfits⟩, h⟩

/-- A walk that is stuck falls back to a text that a rule fits. -/
theorem MarksFit.of_stuck {text : List Nat} {n : Nat} {marks : List Mark} {m' : Match}
    (h : MarksFit Word Ahead text n marks)
    (hmatch : (Walk.mk marks .stuck).match? = some m') :
    ∃ r k, Fits Word Ahead text r k ∧ IsMatch r k n m' := by
  obtain ⟨x, hx, rfl⟩ := Option.map_eq_some_iff.mp hmatch
  obtain ⟨r, haction, hle, hfits⟩ := h x (List.mem_of_mem_head? hx)
  refine ⟨r, x.length, hfits, ?_⟩
  rw [haction]
  exact isMatch_of_le hle true

include h ht in
/-- What is accepted after the end of the input is a rule that fits everything. -/
theorem afterEnd_fits {u : List Nat} {s n action length : Nat} {atEnd : Bool}
    (hat : m.At classOf start (u ++ [endMark]) s) (hu : ∀ c ∈ u, c ≤ endMark)
    (hafter : afterEnd t s n = .accepted action length atEnd) :
    length = n ∧ atEnd = true ∧ ∃ r, action = r + 1 ∧
      Fits Word Ahead (u ++ [endMark]) r (u.length + 1) := by
  have hu' := le_endMark_snoc hu
  have hne : u ++ [endMark] ≠ [] := by simp
  have hfits : ∀ {r : Nat}, m.acceptAt s (classOf endMark) = some r →
      Fits Word Ahead (u ++ [endMark]) r (u.length + 1) := by
    intro r haccept
    obtain ⟨-, hword, -⟩ := acceptAt_eq_some h hat hu' (Nat.le_refl _) haccept
    have hall : Fits Word Ahead (u ++ [endMark]) r (u ++ [endMark]).length :=
      (fits_all hne).mpr hword
    simpa using hall
  rw [afterEnd, ht.eoi (lt_size_of_at h hat hu'), Matcher.cell, ← h.classOf_endMark] at hafter
  cases haccept : m.acceptAt s (classOf endMark) with
  | none =>
    cases hstep : m.dfa.step s (classOf endMark) <;>
      simp [haccept, hstep, h.not_isStart hat hu' hne] at hafter
  | some r =>
    cases hstep : m.dfa.step s (classOf endMark) with
    | none =>
      simp only [haccept, hstep, Ending.accepted.injEq] at hafter
      obtain ⟨rfl, rfl, rfl⟩ := hafter
      exact ⟨rfl, rfl, r, rfl, hfits haccept⟩
    | some s' =>
      by_cases hmarked : m.mayFail.getD s' false = true
      · simp only [haccept, hstep, hmarked, if_true, Ending.accepted.injEq] at hafter
        obtain ⟨rfl, rfl, rfl⟩ := hafter
        exact ⟨rfl, rfl, r, rfl, hfits haccept⟩
      · simp [haccept, hstep, hmarked] at hafter

include h ht in
/-- What a walk matches at the end of the text. -/
theorem walk_nil_fits {u : List Nat} {s : Nat} (bytes : Nat) {marks : List Mark}
    (hat : m.At classOf start u s) (hu : ∀ c ∈ u, c ≤ endMark)
    (hmarks : MarksFit Word Ahead (u ++ codes []) u.length marks) {m' : Match}
    (hmatch : (walk t s u.length bytes marks []).match? = some m') :
    (∃ r k, Fits Word Ahead (u ++ codes []) r k ∧ IsMatch r k u.length m') ∨
      u = [] ∧ m' = ⟨0, 0, false, false⟩ := by
  have hend : ∀ {s' : Nat} {ms : List Mark}, m.dfa.step s (classOf endMark) = some s' →
      MarksFit Word Ahead (u ++ codes []) u.length ms →
      (Walk.mk ms (afterEnd t s' u.length)).match? = some m' →
      ∃ r k, Fits Word Ahead (u ++ codes []) r k ∧ IsMatch r k u.length m' := by
    intro s' ms hstep hms hmatch
    cases hafter : afterEnd t s' u.length with
    | stuck =>
      rw [hafter] at hmatch
      exact hms.of_stuck hmatch
    | accepted action length atEnd =>
      rw [hafter] at hmatch
      cases hmatch
      obtain ⟨rfl, rfl, r, rfl, hfits⟩ :=
        afterEnd_fits h ht (Matcher.at_snoc.mpr ⟨s, hat, hstep⟩) hu hafter
      exact ⟨r, u.length + 1, hfits, rfl, by simp, by simp⟩
  have hhere : ∀ {r : Nat}, m.acceptAt s (classOf endMark) = some r →
      Fits Word Ahead (u ++ codes []) r u.length := by
    intro r haccept
    obtain ⟨hne, hword, hahead, -⟩ := acceptAt_eq_some h hat hu (Nat.le_refl _) haccept
    exact (fits_here hne).mpr ⟨hword, hahead⟩
  have hwalk := hmatch
  rw [walk, ht.eoi (lt_size_of_at h hat hu), Matcher.cell, ← h.classOf_endMark] at hmatch
  cases hstep : m.dfa.step s (classOf endMark) with
  | some s' =>
    cases haccept : m.acceptAt s (classOf endMark) with
    | some r =>
      by_cases hmarked : m.mayFail.getD s' false = true
      · simp only [hstep, haccept, hmarked, if_true] at hmatch
        exact Or.inl (hend hstep (hmarks.cons (Nat.le_refl _) (hhere haccept)) hmatch)
      · simp only [hstep, haccept, hmarked] at hmatch
        exact Or.inl (hend hstep hmarks hmatch)
    | none =>
      simp only [hstep, haccept] at hmatch
      exact Or.inl (hend hstep hmarks hmatch)
  | none =>
    cases haccept : m.acceptAt s (classOf endMark) with
    | some r =>
      simp only [hstep, haccept] at hmatch
      cases hmatch
      exact Or.inl ⟨r, u.length, hhere haccept, isMatch_of_le (Nat.le_refl _) false⟩
    | none =>
      by_cases hu' : u = []
      · subst hu'
        rw [Matcher.at_nil.mp hat] at hstep hwalk
        have hended := walk_ended h ht bytes marks hstep
        exact Or.inr ⟨rfl, Option.some.inj (hwalk.symm.trans hended)⟩
      · simp only [hstep, haccept, h.not_isStart hat hu hu', Bool.and_false] at hmatch
        exact Or.inl (hmarks.of_stuck hmatch)

include h ht in
/-- **What a walk matches is something that a rule fits**, or the end of the input if there was
nothing to read. -/
theorem walk_fits (v : List Char) : ∀ {u : List Nat} {s : Nat} (bytes : Nat) {marks : List Mark}
    {m' : Match}, m.At classOf start u s → (∀ c ∈ u, c ≤ endMark) →
    MarksFit Word Ahead (u ++ codes v) (u.length + v.length) marks →
    (walk t s u.length bytes marks v).match? = some m' →
    (∃ r k, Fits Word Ahead (u ++ codes v) r k ∧ IsMatch r k (u.length + v.length) m') ∨
      u = [] ∧ v = [] ∧ m' = ⟨0, 0, false, false⟩ := by
  induction v with
  | nil =>
    intro u s bytes marks m' hat hu hmarks hmatch
    exact (walk_nil_fits h ht bytes hat hu hmarks hmatch).imp_right
      fun hend => ⟨hend.1, rfl, hend.2⟩
  | cons c v ih =>
    intro u s bytes marks m' hat hu hmarks hmatch
    have hc := Nat.le_of_lt (toNat_lt_endMark c)
    have hle : u.length ≤ u.length + (c :: v).length := Nat.le_add_right _ _
    have hhere : ∀ {r : Nat}, m.acceptAt s (classOf c.toNat) = some r →
        Fits Word Ahead (u ++ codes (c :: v)) r u.length := by
      intro r haccept
      obtain ⟨hne, hword, hahead, -⟩ := acceptAt_eq_some h hat hu hc haccept
      exact (fits_here hne).mpr ⟨hword, hahead⟩
    have hread : ∀ {s' bytes : Nat} {ms : List Mark}, m.dfa.step s (classOf c.toNat) = some s' →
        MarksFit Word Ahead (u ++ codes (c :: v)) (u.length + (c :: v).length) ms →
        (walk t s' (u.length + 1) bytes ms v).match? = some m' →
        ∃ r k, Fits Word Ahead (u ++ codes (c :: v)) r k ∧
          IsMatch r k (u.length + (c :: v).length) m' := by
      intro s' bytes ms hstep hms hmatch
      have hlength : u.length + (c :: v).length = (u ++ [c.toNat]).length + v.length := by
        simp only [List.length_cons, List.length_append, List.length_nil]
        omega
      rw [append_codes_cons, hlength] at hms ⊢
      have hmatch' : (walk t s' (u ++ [c.toNat]).length bytes ms v).match? = some m' := by
        rwa [List.length_append]
      have hnext := ih bytes (Matcher.at_snoc.mpr ⟨s, hat, hstep⟩) (le_endMark_snoc_char hu c) hms
        hmatch'
      exact hnext.resolve_right (by simp)
    rw [walk, ht.char (lt_size_of_at h hat hu) (toNat_lt_endMark c), Matcher.cell] at hmatch
    refine Or.inl ?_
    cases hstep : m.dfa.step s (classOf c.toNat) with
    | some s' =>
      cases haccept : m.acceptAt s (classOf c.toNat) with
      | some r =>
        by_cases hmarked : m.mayFail.getD s' false = true
        · simp only [hstep, haccept, hmarked, if_true] at hmatch
          exact hread hstep (hmarks.cons hle (hhere haccept)) hmatch
        · simp only [hstep, haccept, hmarked] at hmatch
          exact hread hstep hmarks hmatch
      | none =>
        simp only [hstep, haccept] at hmatch
        exact hread hstep hmarks hmatch
    | none =>
      cases haccept : m.acceptAt s (classOf c.toNat) with
      | some r =>
        simp only [hstep, haccept] at hmatch
        cases hmatch
        exact ⟨r, u.length, hhere haccept, isMatch_of_le hle false⟩
      | none =>
        simp only [hstep, haccept, h.classOf_pos (toNat_lt_endMark c), decide_false,
          Bool.false_and] at hmatch
        exact hmarks.of_stuck hmatch

end Sound

/-- A recognizer does not read the end of the input a second time. -/
theorem readsOnce_of_recognizer (h : Recognizer m before classOf start Word Ahead)
    {u : List Nat} (hu : ∀ c ∈ u, c ≤ endMark) (v : List Char) :
    ReadsOnce m classOf start (u ++ codes v) := by
  intro n hat
  rw [codes, ← List.append_assoc] at hat
  obtain ⟨k, hat, hstep⟩ := Matcher.at_snoc.mp hat
  have hle : ∀ c ∈ u ++ v.map Char.toNat, c ≤ endMark := by
    refine List.forall_mem_append.mpr ⟨hu, fun c hc => ?_⟩
    obtain ⟨x, -, rfl⟩ := List.mem_map.mp hc
    exact Nat.le_of_lt (toNat_lt_endMark x)
  rw [(h.eoi_last hat hle).1 (Nat.le_refl _)] at hstep
  cases hstep

/-- **What every walk of a recognizer comes to.** -/
theorem walk_walksTo (h : Recognizer m before classOf start Word Ahead)
    (ht : Represents t m classOf) (v : List Char) {u : List Nat} {s : Nat} (bytes : Nat)
    (marks : List Mark) (hat : m.At classOf start u s) (hu : ∀ c ∈ u, c ≤ endMark) :
    WalksTo before Word Ahead u v marks (walk t s u.length bytes marks v) where
  toFinds := walk_finds h.toReader ht v bytes marks hat hu (readsOnce_of_recognizer h hu v)
  ended := by
    rintro hnone rfl rfl
    rw [Matcher.at_nil.mp hat]
    refine walk_ended h.toReader ht bytes marks ?_
    cases hstep : m.dfa.step start (classOf endMark) with
    | none => rfl
    | some n =>
      have hat : m.At classOf start ([] ++ [endMark]) n :=
        Matcher.at_snoc.mpr ⟨start, Matcher.at_nil.mpr rfl, hstep⟩
      obtain ⟨-, r, hword⟩ := h.eoi_last hat (by simp)
      exact absurd ⟨r, 1, (fits_all (u := [endMark]) (by simp)).mpr hword, Nat.zero_le _⟩ hnone

end GrammarTables.Scan
