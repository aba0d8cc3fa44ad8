import GrammarTables.Proofs.Grammar.Frozen
import GrammarTables.Proofs.Lexical.Meaning
/-
# Resolving keeps the meaning

Whatever `setWith` and `exprWith` make of a tree means the same as the tree: a tree that resolves
to a set denotes that set and no other, and a tree that resolves to an expression matches exactly
the texts of its language and can begin with what the expression can begin with.  Patterns are put
in by recursion on the depth of expansion, so each statement is proved for a tree first, given the
same for the patterns it refers to.
-/

namespace GrammarTables.Lexical

open Regex (Tree TextRange FlagChange SetOp)

/-- The members of a set of code points. -/
def members (s : CharSet) : Set Nat := {c | c ∈ s}

/-! ## 1. Characters and classes -/

theorem Flags.members_fold (flags : Flags) (s : CharSet) :
    members (flags.fold s) = flags.readings s := by
  ext d
  simp only [members, Flags.fold, Flags.readings, Flags.Reads, Set.mem_ofPred_eq]
  cases flags.caseInsensitive with
  | false => simp
  | true =>
    simp only [if_true, CharSet.mem_caseFold, true_and]
    constructor
    · rintro (h | ⟨c, hc, hd⟩)
      · exact ⟨d, h, Or.inl rfl⟩
      · exact ⟨c, hc, Or.inr hd⟩
    · rintro ⟨c, hc, rfl | hd⟩
      · exact Or.inl hc
      · exact Or.inr ⟨c, hc, hd⟩

theorem Flags.mem_fold {flags : Flags} {s : CharSet} {d : Nat} :
    d ∈ flags.fold s ↔ d ∈ flags.readings s :=
  Set.ext_iff.mp (flags.members_fold s) d

theorem mem_foldl_compl (fold : CharSet → CharSet) (xs : List CharSet) {d : Nat} :
    ∀ {s : CharSet}, d ∈ xs.foldl (fun s x => s.union (fold x).compl) s ↔
      d ∈ s ∨ ∃ x ∈ xs, d ≤ maxCodePoint ∧ ¬ d ∈ fold x := by
  induction xs with
  | nil => intro s; simp
  | cons x rest ih =>
    intro s
    simp only [List.foldl_cons, ih, CharSet.mem_union, CharSet.mem_compl, List.mem_cons,
      exists_eq_or_imp, or_assoc]

theorem Flags.members_resolve (flags : Flags) (k : CharClass) :
    members (k.resolve flags.fold) = flags.inClass k := by
  have hinside : ∀ {d}, d ∈ k.excluded.foldl (fun s x => s.union (flags.fold x).compl)
      (flags.fold k.members) ↔ d ∈ flags.insideClass k := by
    intro d
    rw [mem_foldl_compl]
    simp only [Flags.mem_fold, Flags.insideClass, Set.mem_ofPred_eq]
  ext d
  simp only [members, CharClass.resolve, Flags.inClass, Set.mem_ofPred_eq]
  cases k.negated with
  | false => simpa using hinside
  | true => simp only [if_true, CharSet.mem_compl, hinside]

theorem Flags.members_dot (flags : Flags) : members flags.dot = flags.onDot := by
  ext d
  simp only [members, Flags.dot, Flags.onDot, Set.mem_ofPred_eq]
  cases flags.dotAll with
  | true => simp [CharSet.all]
  | false =>
    simp only [Bool.false_eq_true, if_false, CharSet.allButNewline, CharSet.mem_ofPairs,
      List.mem_cons, List.not_mem_nil, or_false, exists_eq_or_imp, exists_eq_left, forall_const]
    simp only [maxCodePoint]
    omega

theorem Flags.members_fold_single (flags : Flags) (c : Nat) :
    members (flags.fold (.single c)) = {d | flags.Reads c d} := by
  rw [members_fold]
  ext d
  simp [readings]

theorem members_combine {s t : CharSet} {op : SetOp} (hs : s.IsUnicode) :
    members (combine op s t) = setAlgebra op (members s) (members t) := by
  ext d
  cases op with
  | union => simp [members, combine, setAlgebra, CharSet.mem_union]
  | intersection => simp [members, combine, setAlgebra]
  | difference =>
    simp only [members, combine, setAlgebra, CharSet.mem_diff, Set.mem_ofPred_eq, Set.mem_sdiff]
    constructor
    · exact fun h => ⟨h.1, h.2.1⟩
    · intro h
      have hle := hs d h.1
      refine ⟨h.1, h.2, ?_⟩
      simp only [maxCodePoint, endMark] at hle ⊢
      omega

/-! ## 2. Sets -/

/-- The patterns of a table come from texts. -/
def PatternTable.Proper (table : PatternTable) : Prop :=
  ∀ {name : String} {p : NamedPattern}, table.find name = .ok p → p.regex.root.Proper

/-- The tree denotes the members of `s`, which are Unicode code points, and nothing else. -/
structure SetMeaning (table : PatternTable) (flags : Flags) (t : Tree) (s : CharSet) : Prop where
  isUnicode : s.IsUnicode
  denotes : ∀ S, DenotesSet table flags t S ↔ S = members s

/-- `pattern` gives the sets of named patterns. -/
def GivesSets (table : PatternTable) (pattern : String → Flags → Except Cause CharSet) : Prop :=
  ∀ (name : String) (flags : Flags) (s : CharSet), pattern name flags = .ok s →
    ∃ p, table.find name = .ok p ∧ SetMeaning table flags p.regex.root s

theorem isUnicode_fold {flags : Flags} {s : CharSet} (h : s.IsUnicode) :
    (flags.fold s).IsUnicode := by
  intro d hd
  rw [Flags.mem_fold] at hd
  obtain ⟨c, hc, rfl | ⟨-, hd⟩⟩ := hd
  · exact h d hc
  · exact (CharSet.le_of_mem_caseVariants hd).1

theorem isUnicode_dot (flags : Flags) : flags.dot.IsUnicode := by
  intro d hd
  have hmem : d ∈ flags.onDot := flags.members_dot ▸ hd
  exact hmem.1

theorem isUnicode_combine {op : SetOp} {s t : CharSet} (hs : s.IsUnicode) (ht : t.IsUnicode) :
    (combine op s t).IsUnicode := by
  intro d hd
  have hmem : d ∈ setAlgebra op (members s) (members t) := members_combine hs ▸ hd
  cases op with
  | difference => exact hs d hmem.1
  | intersection => exact hs d hmem.1
  | union => exact hmem.elim (hs d) (ht d)

mutual

/-- **A tree that resolves to a set denotes it.** -/
theorem setMeaning_of_setWith {table : PatternTable}
    {pattern : String → Flags → Except Cause CharSet} (hpattern : GivesSets table pattern) :
    ∀ (t : Tree) {flags : Flags} {s : CharSet}, t.Proper → setWith pattern flags t = .ok s →
      SetMeaning table flags t s
  | .char r c, flags, s, hp, h => by
    rw [setWith] at h
    cases h
    refine ⟨isUnicode_fold (CharSet.isUnicode_single (Tree.proper_char.mp hp)), fun S => ?_⟩
    rw [Flags.members_fold_single]
    exact ⟨fun h => by cases h; rfl, fun h => h ▸ .char flags r c⟩
  | .set r k, flags, s, hp, h => by
    rw [setWith] at h
    cases h
    refine ⟨CharClass.isUnicode_resolve (isUnicode_fold (Tree.proper_set.mp hp)), fun S => ?_⟩
    rw [Flags.members_resolve]
    exact ⟨fun h => by cases h; rfl, fun h => h ▸ .set flags r k⟩
  | .any r, flags, s, hp, h => by
    rw [setWith] at h
    cases h
    refine ⟨isUnicode_dot flags, fun S => ?_⟩
    rw [Flags.members_dot]
    exact ⟨fun h => by cases h; rfl, fun h => h ▸ .any flags r⟩
  | .expand r name, flags, s, hp, h => by
    rw [setWith] at h
    split at h
    · rename_i u hu
      cases h
      obtain ⟨p, hfind, hmeaning⟩ := hpattern _ _ _ hu
      refine ⟨hmeaning.isUnicode, fun S => ?_⟩
      rw [← hmeaning.denotes S]
      constructor
      · intro h
        cases h with
        | expand hfind' hS =>
          rw [hfind] at hfind'
          cases hfind'
          exact hS
      · exact .expand hfind
    · cases h
  | .group r change inner, flags, s, hp, h => by
    rw [setWith] at h
    have hinner := setMeaning_of_setWith hpattern inner (Tree.proper_group.mp hp) h
    refine ⟨hinner.isUnicode, fun S => ?_⟩
    rw [← hinner.denotes S]
    exact ⟨fun h => by cases h; assumption, .group⟩
  | .alt r items, flags, s, hp, h => by
    rw [setWith] at h
    obtain ⟨T, hT, hs, hdenotes⟩ :=
      setMeaning_of_unionWith hpattern items (Tree.proper_alt.mp hp) h
    have hmembers : T = members s := by
      rw [hs]
      ext d
      simp [members]
    refine ⟨hT (by intro c hc; simp at hc), fun S => ?_⟩
    rw [hdenotes, hmembers]
  | .algebra r op left right, flags, s, hp, h => by
    rw [setWith] at h
    obtain ⟨hpl, hpr⟩ := Tree.proper_algebra.mp hp
    obtain ⟨u, hl, h⟩ := bind_eq_ok.mp h
    obtain ⟨v, hr, h⟩ := bind_eq_ok.mp h
    cases h
    have hu := setMeaning_of_setWith hpattern left hpl hl
    have hv := setMeaning_of_setWith hpattern right hpr hr
    refine ⟨isUnicode_combine hu.isUnicode hv.isUnicode, fun S => ?_⟩
    rw [members_combine hu.isUnicode]
    constructor
    · intro h
      cases h with
      | algebra hS hT => rw [(hu.denotes _).mp hS, (hv.denotes _).mp hT]
    · rintro rfl
      exact .algebra ((hu.denotes _).mpr rfl) ((hv.denotes _).mpr rfl)
  | .empty r, flags, s, hp, h => by rw [setWith] at h; cases h
  | .eoi r, flags, s, hp, h => by rw [setWith] at h; cases h
  | .seq r _, flags, s, hp, h => by rw [setWith] at h; cases h
  | .notFollowedBy r _, flags, s, hp, h => by rw [setWith] at h; cases h
  | .repeated r _ _ _, flags, s, hp, h => by rw [setWith] at h; cases h
  | .placeholder r, flags, s, hp, h => by rw [setWith] at h; cases h

/-- The same for alternatives, added to a set. -/
theorem setMeaning_of_unionWith {table : PatternTable}
    {pattern : String → Flags → Except Cause CharSet} (hpattern : GivesSets table pattern) :
    ∀ (ts : List Tree) {flags : Flags} {s u : CharSet}, (∀ t ∈ ts, t.Proper) →
      unionWith pattern flags s ts = .ok u →
      ∃ T, (s.IsUnicode → u.IsUnicode) ∧ members u = members s ∪ T ∧
        ∀ {r : TextRange} {S : Set Nat}, DenotesSet table flags (.alt r ts) S ↔ S = T
  | [], flags, s, u, hp, h => by
    rw [unionWith] at h
    cases h
    exact ⟨∅, id, by simp, ⟨fun h => by cases h; rfl, fun h => h ▸ .altNil flags _⟩⟩
  | t :: ts, flags, s, u, hp, h => by
    rw [unionWith] at h
    obtain ⟨v, ht, h⟩ := bind_eq_ok.mp h
    have hv := setMeaning_of_setWith hpattern t (hp t (by simp)) ht
    obtain ⟨T, hunicode, hu, hdenotes⟩ :=
      setMeaning_of_unionWith hpattern ts (fun t ht => hp t (by simp [ht])) h
    refine ⟨members v ∪ T, fun hs => hunicode (CharSet.isUnicode_union hs hv.isUnicode), ?_, ?_⟩
    · rw [hu, ← Set.union_assoc]
      congr 1
      ext d
      simp [members, CharSet.mem_union]
    · intro r S
      constructor
      · intro h
        cases h with
        | altCons hS hT => rw [(hv.denotes _).mp hS, hdenotes.mp hT]
      · rintro rfl
        exact .altCons ((hv.denotes _).mpr rfl) (hdenotes.mpr rfl)

end

theorem givesSets_patternSet {table : PatternTable} (htable : table.Proper) (depth : Nat) :
    GivesSets table (patternSet table depth) := by
  induction depth with
  | zero =>
    intro name flags s h
    rw [patternSet] at h
    obtain ⟨_, -, h⟩ := bind_eq_ok.mp h
    cases h
  | succ depth ih =>
    intro name flags s h
    rw [patternSet] at h
    obtain ⟨p, hfind, h⟩ := bind_eq_ok.mp h
    split at h
    · rename_i u hu
      cases h
      exact ⟨p, hfind, setMeaning_of_setWith ih _ (htable hfind) hu⟩
    · cases h

theorem setMeaning_of_resolveSet {table : PatternTable} (htable : table.Proper) {flags : Flags}
    {t : Tree} {s : CharSet} (hp : t.Proper) (h : resolveSet table flags t = .ok s) :
    SetMeaning table flags t s :=
  setMeaning_of_setWith (givesSets_patternSet htable _) t hp h

/-! ## 3. Expressions -/

/-- The tree means what the expression means. -/
structure ExprMeaning (table : PatternTable) (flags : Flags) (t : Tree) (e : Expr) : Prop where
  matches_iff : ∀ {w : List Nat}, Matches table flags t w ↔ w ∈ e.language
  begins : ∀ {w : List Nat}, w ∈ e.begun → Begins table flags t w
  eoiFree : ¬ UsesEoi table t → e.EoiFree
  eoiLast : EoiLast table t → e.EoiLast

/-- `pattern` gives the expressions of named patterns. -/
def GivesExprs (table : PatternTable) (pattern : String → Flags → Except Cause Expr) : Prop :=
  ∀ (name : String) (flags : Flags) (e : Expr), pattern name flags = .ok e →
    ∃ p, table.find name = .ok p ∧ ExprMeaning table flags p.regex.root e

/-- The texts that a tree matches. -/
def textsOf (table : PatternTable) (flags : Flags) (t : Tree) : Language Nat :=
  {w | Matches table flags t w}

theorem mem_textsOf {table : PatternTable} {flags : Flags} {t : Tree} {w : List Nat} :
    w ∈ textsOf table flags t ↔ Matches table flags t w := Iff.rfl

/-- The texts of one character of a set. -/
def oneOf (S : Set Nat) : Language Nat := {w | ∃ d ∈ S, w = [d]}

theorem mem_oneOf {S : Set Nat} {w : List Nat} : w ∈ oneOf S ↔ ∃ d ∈ S, w = [d] := Iff.rfl

theorem letters_eq (s : CharSet) : letters s = oneOf (members s) := rfl

section Texts

variable {table : PatternTable} {flags : Flags} {r : TextRange} {t : Tree} {ts : List Tree}

theorem textsOf_empty : textsOf table flags (.empty r) = 1 := by
  ext w
  rw [mem_textsOf, Language.mem_one]
  exact ⟨fun h => by cases h; rfl, fun h => h ▸ .empty flags r⟩

theorem textsOf_char {c : Nat} :
    textsOf table flags (.char r c) = oneOf {d | flags.Reads c d} := by
  ext w
  constructor
  · intro h
    cases h with
    | char hd => exact ⟨_, hd, rfl⟩
  · rintro ⟨d, hd, rfl⟩
    exact .char hd

theorem textsOf_set {k : CharClass} :
    textsOf table flags (.set r k) = oneOf (flags.inClass k) := by
  ext w
  constructor
  · intro h
    cases h with
    | set hd => exact ⟨_, hd, rfl⟩
  · rintro ⟨d, hd, rfl⟩
    exact .set hd

theorem textsOf_any : textsOf table flags (.any r) = oneOf flags.onDot := by
  ext w
  constructor
  · intro h
    cases h with
    | any hd => exact ⟨_, hd, rfl⟩
  · rintro ⟨d, hd, rfl⟩
    exact .any hd

theorem textsOf_eoi : textsOf table flags (.eoi r) = letters (.single endMark) := by
  ext w
  rw [mem_textsOf, mem_letters]
  constructor
  · intro h
    cases h
    exact ⟨endMark, CharSet.mem_single.mpr rfl, rfl⟩
  · rintro ⟨c, hc, rfl⟩
    rw [CharSet.mem_single.mp hc]
    exact .eoi flags r

theorem textsOf_algebra {op : SetOp} {left right : Tree} {S : Set Nat}
    (hS : ∀ T, DenotesSet table flags (.algebra r op left right) T ↔ T = S) :
    textsOf table flags (.algebra r op left right) = oneOf S := by
  ext w
  constructor
  · intro h
    cases h with
    | algebra hT hd => exact ⟨_, (hS _).mp hT ▸ hd, rfl⟩
  · rintro ⟨d, hd, rfl⟩
    exact .algebra ((hS S).mpr rfl) hd

theorem textsOf_expand {name : String} {p : NamedPattern} (hfind : table.find name = .ok p) :
    textsOf table flags (.expand r name) = textsOf table flags p.regex.root := by
  ext w
  constructor
  · intro h
    cases h with
    | expand hfind' hw =>
      rw [hfind] at hfind'
      cases hfind'
      exact hw
  · exact .expand hfind

theorem textsOf_group {change : Option FlagChange} :
    textsOf table flags (.group r change t) = textsOf table (flags.apply change) t := by
  ext w
  exact ⟨fun h => by cases h; assumption, .group⟩

theorem textsOf_seq_nil : textsOf table flags (.seq r []) = 1 := by
  ext w
  rw [mem_textsOf, Language.mem_one]
  exact ⟨fun h => by cases h; rfl, fun h => h ▸ .seqNil flags r⟩

theorem textsOf_seq_cons : textsOf table flags (.seq r (t :: ts)) =
    textsOf table flags t * textsOf table flags (.seq r ts) := by
  ext w
  rw [mem_textsOf, Language.mem_mul]
  constructor
  · intro h
    cases h with
    | seqCons hu hv => exact ⟨_, hu, _, hv, rfl⟩
  · rintro ⟨u, hu, v, hv, rfl⟩
    exact .seqCons hu hv

theorem textsOf_alt_nil : textsOf table flags (.alt r []) = 0 := by
  ext w
  exact ⟨fun h => by cases h; contradiction, fun h => absurd h (Language.notMem_zero w)⟩

theorem textsOf_alt_cons : textsOf table flags (.alt r (t :: ts)) =
    textsOf table flags t + textsOf table flags (.alt r ts) := by
  ext w
  rw [mem_textsOf, Language.mem_add]
  constructor
  · intro h
    cases h with
    | alt hmem hw =>
      rcases List.mem_cons.mp hmem with rfl | hmem
      · exact Or.inl hw
      · exact Or.inr (.alt hmem hw)
  · rintro (hw | hw)
    · exact .alt (by simp) hw
    · cases hw with
      | alt hmem hw => exact .alt (by simp [hmem]) hw

theorem textsOf_repeated {min : Nat} {max : Option Nat} (hmax : ∀ m ∈ max, min ≤ m) :
    textsOf table flags (.repeated r t min max) = copies (textsOf table flags t) min max := by
  ext w
  rw [mem_textsOf, mem_copies]
  constructor
  · intro hw
    cases hw with
    | @repeated _ _ _ _ _ ws hlo hhi hws =>
      refine ⟨ws.length, ⟨hlo, fun m hm => ?_⟩, ?_⟩
      · exact Nat.le_trans (hhi m hm) (Nat.le_max_right min m)
      · exact Language.mem_pow.mpr ⟨ws, rfl, rfl, hws⟩
  · rintro ⟨n, ⟨hlo, hhi⟩, hw⟩
    obtain ⟨ws, rfl, rfl, hws⟩ := Language.mem_pow.mp hw
    refine .repeated hlo (fun m hm => ?_) hws
    exact Nat.max_eq_right (hmax m hm) ▸ hhi m hm

theorem copies_zero (L : Language Nat) : copies L 0 (some 0) = 1 := by
  ext w
  rw [mem_copies]
  constructor
  · rintro ⟨n, ⟨-, hhi⟩, hw⟩
    have hn : n = 0 := Nat.le_zero.mp (hhi 0 rfl)
    rwa [hn, pow_zero] at hw
  · exact fun hw => ⟨0, ⟨Nat.le_refl 0, by simp⟩, by rwa [pow_zero]⟩

end Texts

/-- A tree that reads one character of a set. -/
theorem ExprMeaning.of_set {table : PatternTable} {flags : Flags} {t : Tree} {s : CharSet}
    (hunicode : s.IsUnicode)
    (htexts : textsOf table flags t = oneOf (members s)) :
    ExprMeaning table flags t (.chars s) := by
  have hfree : (Expr.chars s).EoiFree := by
    refine .chars fun hmem => ?_
    have hle := hunicode _ hmem
    simp only [maxCodePoint, endMark] at hle
    omega
  have hiff : ∀ {w : List Nat}, Matches table flags t w ↔ w ∈ (Expr.chars s).language := by
    intro w
    rw [← mem_textsOf, htexts, Expr.language, letters_eq]
  refine ⟨hiff, fun hw => ?_, fun _ => hfree, fun _ => .free hfree⟩
  rw [Expr.begun] at hw
  rcases (Language.mem_add _ _ _).mp hw with hw | hw
  · exact (Language.mem_one _).mp hw ▸ .nil flags t
  · exact .all (hiff.mpr (by rwa [Expr.language]))

theorem ExprMeaning.textsOf_eq {table : PatternTable} {flags : Flags} {t : Tree} {e : Expr}
    (h : ExprMeaning table flags t e) : textsOf table flags t = e.language := by
  ext w
  exact h.matches_iff

theorem matches_seq_iff {table : PatternTable} {flags : Flags} {ts : List Tree} {es : List Expr}
    (h : List.Forall₂ (ExprMeaning table flags) ts es) {r : TextRange} {w : List Nat} :
    Matches table flags (.seq r ts) w ↔ w ∈ seqLanguage es := by
  have htexts : textsOf table flags (.seq r ts) = seqLanguage es := by
    induction h with
    | nil => rw [textsOf_seq_nil, seqLanguage]
    | cons ht _ ih => rw [textsOf_seq_cons, seqLanguage, ht.textsOf_eq, ih]
  rw [← htexts, mem_textsOf]

theorem matches_alt_iff {table : PatternTable} {flags : Flags} {ts : List Tree} {es : List Expr}
    (h : List.Forall₂ (ExprMeaning table flags) ts es) {r : TextRange} {w : List Nat} :
    Matches table flags (.alt r ts) w ↔ w ∈ altLanguage es := by
  have htexts : textsOf table flags (.alt r ts) = altLanguage es := by
    induction h with
    | nil => rw [textsOf_alt_nil, altLanguage]
    | cons ht _ ih => rw [textsOf_alt_cons, altLanguage, ht.textsOf_eq, ih]
  rw [← htexts, mem_textsOf]

theorem matches_repeated_iff {table : PatternTable} {flags : Flags} {t : Tree} {e : Expr}
    (h : ExprMeaning table flags t e) {r : TextRange} {min : Nat} {max : Option Nat}
    (hmax : ∀ m ∈ max, min ≤ m) {w : List Nat} :
    Matches table flags (.repeated r t min max) w ↔ w ∈ (Expr.repeated e min max).language := by
  rw [Expr.language, ← h.textsOf_eq, ← textsOf_repeated hmax, mem_textsOf]

/-- What a sequence can begin with, whatever comes after it. -/
theorem begins_seq {table : PatternTable} {flags : Flags} {ts : List Tree} {es : List Expr}
    (h : List.Forall₂ (ExprMeaning table flags) ts es) {r : TextRange} (more : List Tree) :
    ∀ {w : List Nat}, w ∈ seqBegun es → Begins table flags (.seq r (ts ++ more)) w := by
  induction h with
  | nil =>
    intro w hw
    rw [seqBegun] at hw
    exact (Language.mem_one w).mp hw ▸ .nil flags _
  | @cons t e ts es ht _ ih =>
    intro w hw
    rw [seqBegun] at hw
    rcases (Language.mem_add _ _ _).mp hw with hw | hw
    · exact .seqHead (ht.begins hw)
    · obtain ⟨u, hu, v, hv, rfl⟩ := Language.mem_mul.mp hw
      exact .seqTail (ht.matches_iff.mpr hu) (ih hv)

theorem begins_alt {table : PatternTable} {flags : Flags} {ts : List Tree} {es : List Expr}
    (h : List.Forall₂ (ExprMeaning table flags) ts es) {r : TextRange} {w : List Nat}
    (hw : w ∈ altBegun es) : Begins table flags (.alt r ts) w := by
  suffices hany : w = [] ∨ ∃ t ∈ ts, Begins table flags t w by
    rcases hany with rfl | ⟨t, ht, hbegins⟩
    · exact .nil flags _
    · exact .alt ht hbegins
  induction h with
  | nil =>
    rw [altBegun] at hw
    exact Or.inl ((Language.mem_one w).mp hw)
  | @cons t e ts es ht _ ih =>
    rw [altBegun] at hw
    rcases (Language.mem_add _ _ _).mp hw with hw | hw
    · exact Or.inr ⟨t, by simp, ht.begins hw⟩
    · exact (ih hw).imp_right fun ⟨t, ht, hbegins⟩ => ⟨t, by simp [ht], hbegins⟩

theorem begins_repeated {table : PatternTable} {flags : Flags} {t : Tree} {e : Expr}
    (h : ExprMeaning table flags t e) {r : TextRange} {min : Nat} {max : Option Nat}
    (hmax : ∀ m ∈ max, min ≤ m) {w : List Nat} (hw : w ∈ (Expr.repeated e min max).begun) :
    Begins table flags (.repeated r t min max) w := by
  rw [Expr.begun] at hw
  rcases (Language.mem_add _ _ _).mp hw with hw | ⟨n, hn, hw⟩
  · exact (Language.mem_one w).mp hw ▸ .nil flags _
  · obtain ⟨u, hu, v, hv, rfl⟩ := Language.mem_mul.mp hw
    obtain ⟨ws, rfl, rfl, hws⟩ := Language.mem_pow.mp hu
    refine .repeated (fun m hm => ?_) (fun x hx => h.matches_iff.mpr (hws x hx)) (h.begins hv)
    exact Nat.max_eq_right (hmax m hm) ▸ hn m hm

theorem forall_eoiFree {table : PatternTable} {flags : Flags} {ts : List Tree} {es : List Expr}
    (h : List.Forall₂ (ExprMeaning table flags) ts es) (hfree : ∀ t ∈ ts, ¬ UsesEoi table t) :
    ∀ e ∈ es, e.EoiFree := by
  induction h with
  | nil => simp
  | cons ht _ ih =>
    refine List.forall_mem_cons.mpr ⟨ht.eoiFree (hfree _ (by simp)), ih fun t ht => ?_⟩
    exact hfree t (by simp [ht])

theorem exists_of_forall₂_snoc {α β : Type} {R : α → β → Prop} {init : List α} {last : α} :
    ∀ {bs : List β}, List.Forall₂ R (init ++ [last]) bs →
      ∃ bs' b, bs = bs' ++ [b] ∧ List.Forall₂ R init bs' ∧ R last b := by
  induction init with
  | nil =>
    intro bs h
    cases h with
    | cons hb hnil => cases hnil; exact ⟨[], _, rfl, .nil, hb⟩
  | cons a rest ih =>
    intro bs h
    cases h with
    | cons hb hrest =>
      obtain ⟨bs', b, rfl, hinit, hlast⟩ := ih hrest
      exact ⟨_ :: bs', b, rfl, .cons hb hinit, hlast⟩

theorem not_usesEoi_of_mem_preorder {table : PatternTable} {t u : Tree} (h : ¬ UsesEoi table t)
    (hu : ∀ x ∈ u.preorder, x ∈ t.preorder) : ¬ UsesEoi table u := by
  intro huses
  cases huses with
  | here hmem => exact h (.here (hu _ hmem))
  | inPattern hmem hfind hp => exact h (.inPattern (hu _ hmem) hfind hp)

theorem eoiFree_seq {table : PatternTable} {flags : Flags} {r : TextRange} {ts : List Tree}
    {es : List Expr} (h : List.Forall₂ (ExprMeaning table flags) ts es)
    (hfree : ¬ UsesEoi table (.seq r ts)) : (Expr.seq es).EoiFree := by
  refine .seq (forall_eoiFree h fun t ht => not_usesEoi_of_mem_preorder hfree fun x hx => ?_)
  simp only [Tree.preorder, List.mem_cons, Tree.mem_preorderAll]
  exact Or.inr ⟨t, ht, hx⟩

theorem eoiLast_of_seq {table : PatternTable} {flags : Flags} {r : TextRange} {ts : List Tree}
    {es : List Expr} (h : List.Forall₂ (ExprMeaning table flags) ts es)
    (hlast : EoiLast table (.seq r ts)) : (Expr.seq es).EoiLast := by
  cases hlast with
  | free hfree => exact .free (eoiFree_seq h hfree)
  | seq hinit hlast =>
    obtain ⟨es', e, rfl, hes, he⟩ := exists_of_forall₂_snoc h
    exact .seq (forall_eoiFree hes hinit) (he.eoiLast hlast)

/-! The meaning of each kind of tree, from the meanings of its parts. -/

section Cases

variable {table : PatternTable} {flags : Flags} {e : Expr}

theorem exprMeaning_empty (r : TextRange) : ExprMeaning table flags (.empty r) (.seq []) := by
  have hfree : (Expr.seq []).EoiFree := .seq (by simp)
  refine ⟨?_, fun hw => ?_, fun _ => hfree, fun _ => .free hfree⟩
  · intro w
    rw [← mem_textsOf, textsOf_empty, Expr.language, seqLanguage]
  · rw [Expr.begun, seqBegun] at hw
    exact (Language.mem_one _).mp hw ▸ .nil flags _

theorem exprMeaning_char {r : TextRange} {c : Nat} (hp : (Tree.char r c).Proper) :
    ExprMeaning table flags (.char r c) (.chars (flags.fold (.single c))) := by
  refine .of_set (isUnicode_fold (CharSet.isUnicode_single (Tree.proper_char.mp hp))) ?_
  rw [textsOf_char, Flags.members_fold_single]

theorem exprMeaning_set {r : TextRange} {k : CharClass} (hp : (Tree.set r k).Proper) :
    ExprMeaning table flags (.set r k) (.chars (k.resolve flags.fold)) := by
  refine .of_set (CharClass.isUnicode_resolve (isUnicode_fold (Tree.proper_set.mp hp))) ?_
  rw [textsOf_set, Flags.members_resolve]

theorem exprMeaning_any (r : TextRange) :
    ExprMeaning table flags (.any r) (.chars flags.dot) := by
  refine .of_set (isUnicode_dot flags) ?_
  rw [textsOf_any, Flags.members_dot]

theorem exprMeaning_eoi (r : TextRange) :
    ExprMeaning table flags (.eoi r) (.chars (.single endMark)) := by
  have hiff : ∀ {w : List Nat}, Matches table flags (.eoi r) w ↔ w ∈ letters (.single endMark) := by
    intro w
    rw [← mem_textsOf, textsOf_eoi]
  refine ⟨by rw [Expr.language]; exact hiff, fun hw => ?_,
    fun hfree => absurd (.here (r := r) (by simp [Tree.preorder])) hfree, fun _ => .eoi⟩
  rw [Expr.begun] at hw
  rcases (Language.mem_add _ _ _).mp hw with hw | hw
  · exact (Language.mem_one _).mp hw ▸ .nil flags _
  · exact .all (hiff.mpr hw)

theorem exprMeaning_expand (r : TextRange) {name : String} {p : NamedPattern}
    (hfind : table.find name = .ok p) (hmeaning : ExprMeaning table flags p.regex.root e) :
    ExprMeaning table flags (.expand r name) e := by
  have hfree : ¬ UsesEoi table (.expand r name) → e.EoiFree := by
    intro h
    exact hmeaning.eoiFree fun hp => h (.inPattern (r := r) (by simp [Tree.preorder]) hfind hp)
  refine ⟨?_, fun hw => .expand hfind (hmeaning.begins hw), hfree, ?_⟩
  · intro w
    rw [← hmeaning.matches_iff, ← mem_textsOf, textsOf_expand hfind, mem_textsOf]
  · intro h
    cases h with
    | free h => exact .free (hfree h)
    | expand hfind' hlast =>
      rw [hfind] at hfind'
      cases hfind'
      exact hmeaning.eoiLast hlast

theorem exprMeaning_seq (r : TextRange) {ts : List Tree} {es : List Expr}
    (h : List.Forall₂ (ExprMeaning table flags) ts es) :
    ExprMeaning table flags (.seq r ts) (.seq es) := by
  refine ⟨?_, ?_, eoiFree_seq h, eoiLast_of_seq h⟩
  · intro w
    rw [Expr.language]
    exact matches_seq_iff h
  · intro w hw
    rw [Expr.begun] at hw
    simpa using begins_seq h (r := r) [] hw

theorem exprMeaning_alt (r : TextRange) {ts : List Tree} {es : List Expr}
    (hall : List.Forall₂ (ExprMeaning table flags) ts es) :
    ExprMeaning table flags (.alt r ts) (.alt es) := by
  have hfree : ¬ UsesEoi table (.alt r ts) → (Expr.alt es).EoiFree := by
    intro h
    refine .alt (forall_eoiFree hall fun t ht => not_usesEoi_of_mem_preorder h fun x hx => ?_)
    simp only [Tree.preorder, List.mem_cons, Tree.mem_preorderAll]
    exact Or.inr ⟨t, ht, hx⟩
  refine ⟨?_, fun hw => begins_alt hall (by rwa [Expr.begun] at hw), hfree, ?_⟩
  · intro w
    rw [Expr.language]
    exact matches_alt_iff hall
  · intro h
    cases h with
    | free h => exact .free (hfree h)

theorem exprMeaning_group (r : TextRange) {change : Option FlagChange} {inner : Tree}
    (hinner : ExprMeaning table (flags.apply change) inner e) :
    ExprMeaning table flags (.group r change inner) e := by
  have hfree : ¬ UsesEoi table (.group r change inner) → e.EoiFree := by
    intro h
    exact hinner.eoiFree (not_usesEoi_of_mem_preorder h (by simp +contextual [Tree.preorder]))
  refine ⟨?_, fun hw => .group (hinner.begins hw), hfree, ?_⟩
  · intro w
    rw [← hinner.matches_iff, ← mem_textsOf, textsOf_group, mem_textsOf]
  · intro h
    cases h with
    | free h => exact .free (hfree h)
    | group h => exact hinner.eoiLast h

/-- No copies at all, whatever the operand is. -/
theorem exprMeaning_no_copies (r : TextRange) (inner : Tree) :
    ExprMeaning table flags (.repeated r inner 0 (some 0)) (.repeated (.seq []) 0 (some 0)) := by
  have hfree : (Expr.repeated (.seq []) 0 (some 0)).EoiFree := .repeated (.seq (by simp))
  refine ⟨?_, fun hw => ?_, fun _ => hfree, fun _ => .free hfree⟩
  · intro w
    rw [← mem_textsOf, textsOf_repeated (by simp), Expr.language, copies_zero, copies_zero]
  · rw [Expr.begun] at hw
    rcases (Language.mem_add _ _ _).mp hw with hw | ⟨n, hn, -⟩
    · exact (Language.mem_one _).mp hw ▸ .nil flags _
    · exact absurd (hn 0 rfl) (Nat.not_lt_zero n)

theorem exprMeaning_repeated (r : TextRange) {inner : Tree} {min : Nat} {max : Option Nat}
    (hmax : ∀ n ∈ max, min ≤ n) (hinner : ExprMeaning table flags inner e) :
    ExprMeaning table flags (.repeated r inner min max) (.repeated e min max) := by
  have hfree : ¬ UsesEoi table (.repeated r inner min max) →
      (Expr.repeated e min max).EoiFree := by
    intro h
    exact .repeated (hinner.eoiFree
      (not_usesEoi_of_mem_preorder h (by simp +contextual [Tree.preorder])))
  refine ⟨matches_repeated_iff hinner hmax, begins_repeated hinner hmax, hfree, ?_⟩
  intro h
  cases h with
  | free h => exact .free (hfree h)

theorem exprMeaning_algebra {r : TextRange} {op : SetOp} {left right : Tree} {s : CharSet}
    (hmeaning : SetMeaning table flags (.algebra r op left right) s) :
    ExprMeaning table flags (.algebra r op left right) (.chars s) :=
  .of_set hmeaning.isUnicode (textsOf_algebra hmeaning.denotes)

end Cases

mutual

/-- **A tree that resolves to an expression means the same.** -/
theorem exprMeaning_of_exprWith {table : PatternTable} (htable : table.Proper)
    {pattern : String → Flags → Except Cause Expr} (hpattern : GivesExprs table pattern)
    {limit : Nat} : ∀ (t : Tree) {flags : Flags} {e : Expr}, t.Proper →
      exprWith (resolveSet table) pattern limit flags t = .ok e → ExprMeaning table flags t e
  | .empty r, flags, e, hp, h => by
    rw [exprWith] at h
    cases h
    exact exprMeaning_empty r
  | .char r c, flags, e, hp, h => by
    rw [exprWith] at h
    cases h
    exact exprMeaning_char hp
  | .set r k, flags, e, hp, h => by
    rw [exprWith] at h
    cases h
    exact exprMeaning_set hp
  | .any r, flags, e, hp, h => by
    rw [exprWith] at h
    cases h
    exact exprMeaning_any r
  | .eoi r, flags, e, hp, h => by
    rw [exprWith] at h
    cases h
    exact exprMeaning_eoi r
  | .expand r name, flags, e, hp, h => by
    rw [exprWith] at h
    split at h
    · rename_i e' he
      cases h
      obtain ⟨p, hfind, hmeaning⟩ := hpattern _ _ _ he
      exact exprMeaning_expand r hfind hmeaning
    · cases h
  | .seq r items, flags, e, hp, h => by
    rw [exprWith] at h
    obtain ⟨es, hes, h⟩ := bind_eq_ok.mp h
    cases h
    exact exprMeaning_seq r
      (exprMeaning_of_exprsWith htable hpattern items (Tree.proper_seq.mp hp) hes)
  | .alt r items, flags, e, hp, h => by
    rw [exprWith] at h
    obtain ⟨es, hes, h⟩ := bind_eq_ok.mp h
    cases h
    exact exprMeaning_alt r
      (exprMeaning_of_exprsWith htable hpattern items (Tree.proper_alt.mp hp) hes)
  | .group r change inner, flags, e, hp, h => by
    rw [exprWith] at h
    exact exprMeaning_group r
      (exprMeaning_of_exprWith htable hpattern inner (Tree.proper_group.mp hp) h)
  | .repeated r inner min max, flags, e, hp, h => by
    obtain ⟨hmax, hinner⟩ := Tree.proper_repeated.mp hp
    rw [exprWith] at h
    split at h
    · cases h
    · split at h
      · rename_i hzero
        simp only [Bool.and_eq_true, decide_eq_true_eq] at hzero
        obtain ⟨rfl, rfl⟩ := hzero
        cases h
        exact exprMeaning_no_copies r inner
      · obtain ⟨e', he, h⟩ := bind_eq_ok.mp h
        cases h
        exact exprMeaning_repeated r hmax (exprMeaning_of_exprWith htable hpattern inner hinner he)
  | .algebra r op left right, flags, e, hp, h => by
    rw [exprWith] at h
    obtain ⟨s, hs, h⟩ := bind_eq_ok.mp h
    cases h
    exact exprMeaning_algebra (setMeaning_of_resolveSet htable hp hs)
  | .notFollowedBy r _, flags, e, hp, h => by rw [exprWith] at h; cases h
  | .placeholder r, flags, e, hp, h => by rw [exprWith] at h; cases h

/-- The same for trees one by one. -/
theorem exprMeaning_of_exprsWith {table : PatternTable} (htable : table.Proper)
    {pattern : String → Flags → Except Cause Expr} (hpattern : GivesExprs table pattern)
    {limit : Nat} : ∀ (ts : List Tree) {flags : Flags} {es : List Expr}, (∀ t ∈ ts, t.Proper) →
      exprsWith (resolveSet table) pattern limit flags ts = .ok es →
      List.Forall₂ (ExprMeaning table flags) ts es
  | [], flags, es, hp, h => by
    rw [exprsWith] at h
    cases h
    exact .nil
  | t :: ts, flags, es, hp, h => by
    rw [exprsWith] at h
    obtain ⟨e, he, h⟩ := bind_eq_ok.mp h
    obtain ⟨es', hes, h⟩ := bind_eq_ok.mp h
    cases h
    exact .cons (exprMeaning_of_exprWith htable hpattern t (hp t (by simp)) he)
      (exprMeaning_of_exprsWith htable hpattern ts (fun t ht => hp t (by simp [ht])) hes)

end

theorem givesExprs_patternExpr {table : PatternTable} (htable : table.Proper) (limit depth : Nat) :
    GivesExprs table (patternExpr table limit depth) := by
  induction depth with
  | zero =>
    intro name flags e h
    rw [patternExpr] at h
    obtain ⟨_, -, h⟩ := bind_eq_ok.mp h
    cases h
  | succ depth ih =>
    intro name flags e h
    rw [patternExpr] at h
    obtain ⟨p, hfind, h⟩ := bind_eq_ok.mp h
    split at h
    · rename_i u hu
      cases h
      exact ⟨p, hfind, exprMeaning_of_exprWith htable ih _ (htable hfind) hu⟩
    · cases h

theorem exprMeaning_of_resolveAll {table : PatternTable} (htable : table.Proper) {limit : Nat}
    {flags : Flags} {ts : List Tree} {es : List Expr} (hp : ∀ t ∈ ts, t.Proper)
    (h : resolveAll table limit flags ts = .ok es) :
    List.Forall₂ (ExprMeaning table flags) ts es :=
  exprMeaning_of_exprsWith htable (givesExprs_patternExpr htable limit _) ts hp h

/-! ## 4. Rules -/

/-- The rule means what its body and its lookahead mean. -/
structure RuleMeaning (table : PatternTable) (t : Tree) (e : RuleExpr) : Prop where
  matches_iff : ∀ {w : List Nat} {next : Option Nat}, RuleMatches table t w next ↔
    w ∈ (Expr.seq e.body).language ∧ ∀ c ∈ next, ∀ s ∈ e.lookahead, ¬ c ∈ s
  begins : ∀ {w : List Nat}, w ∈ (Expr.seq e.body).begun → Begins table {} t w
  isUnicode : ∀ s ∈ e.lookahead, s.IsUnicode
  eoiLast : RuleEoiLast table t → (Expr.seq e.body).EoiLast

/-- A lookahead has no meaning of its own, so it matches nothing. -/
theorem not_matches_of_lookahead {table : PatternTable} {flags : Flags} {r ra : TextRange}
    {items : List Tree} {ahead : Tree} :
    ∀ {w : List Nat}, ¬ Matches table flags (.seq r (items ++ [.notFollowedBy ra ahead])) w := by
  induction items with
  | nil =>
    intro w h
    cases h with
    | seqCons hu _ => cases hu
  | cons t ts ih =>
    intro w h
    cases h with
    | seqCons _ hv => exact ih hv

/-- A rule without a lookahead. -/
theorem RuleMeaning.of_plain {table : PatternTable} {t : Tree} {es : List Expr}
    (hnot : ∀ r ra items ahead, t ≠ .seq r (items ++ [.notFollowedBy ra ahead]))
    (hmatch : ∀ {w : List Nat}, Matches table {} t w ↔ w ∈ (Expr.seq es).language)
    (hbegins : ∀ {w : List Nat}, w ∈ (Expr.seq es).begun → Begins table {} t w)
    (hlast : EoiLast table t → (Expr.seq es).EoiLast) : RuleMeaning table t ⟨es, none⟩ where
  matches_iff := by
    intro w next
    rw [← hmatch]
    constructor
    · intro h
      cases h with
      | plain h => exact ⟨h, by simp⟩
      | guarded => exact absurd rfl (hnot _ _ _ _)
    · exact fun h => .plain h.1
  begins := hbegins
  isUnicode := by simp
  eoiLast := by
    intro h
    cases h with
    | plain h => exact hlast h
    | guarded => exact absurd rfl (hnot _ _ _ _)

/-- A rule that ends in a lookahead. -/
theorem RuleMeaning.of_guarded {table : PatternTable} {r ra : TextRange} {items : List Tree}
    {ahead : Tree} {es : List Expr} {s : CharSet}
    (hall : List.Forall₂ (ExprMeaning table {}) items es) (hset : SetMeaning table {} ahead s) :
    RuleMeaning table (.seq r (items ++ [.notFollowedBy ra ahead])) ⟨es, some s⟩ where
  matches_iff := by
    intro w next
    rw [Expr.language, ← matches_seq_iff hall (r := r)]
    constructor
    · generalize ht : Tree.seq r (items ++ [.notFollowedBy ra ahead]) = t
      intro h
      cases h with
      | plain h => exact absurd (ht ▸ h) not_matches_of_lookahead
      | guarded hw hS hnext =>
        simp only [Tree.seq.injEq] at ht
        obtain ⟨rfl, ht⟩ := ht
        obtain ⟨rfl, hlast⟩ := List.append_inj' ht rfl
        cases hlast
        refine ⟨hw, fun c hc u hu => ?_⟩
        cases hu
        rw [(hset.denotes _).mp hS] at hnext
        exact hnext c hc
    · rintro ⟨hw, hnext⟩
      exact .guarded hw ((hset.denotes _).mpr rfl) fun c hc => hnext c hc s rfl
  begins := by
    intro w hw
    rw [Expr.begun] at hw
    exact begins_seq hall _ hw
  isUnicode := by
    intro u hu
    cases hu
    exact hset.isUnicode
  eoiLast := by
    generalize ht : Tree.seq r (items ++ [.notFollowedBy ra ahead]) = t
    intro h
    cases h with
    | plain h =>
      subst ht
      -- the lookahead is the last item, so the body does not use the end of the input
      refine .free (.seq (forall_eoiFree hall fun u hu => ?_))
      generalize ht : Tree.seq r (items ++ [.notFollowedBy ra ahead]) = t at h
      cases h with
      | free h =>
        refine not_usesEoi_of_mem_preorder h fun x hx => ?_
        rw [← ht]
        simp only [Tree.preorder, List.mem_cons, Tree.mem_preorderAll, List.mem_append]
        exact Or.inr ⟨u, Or.inl hu, hx⟩
      | seq hinit _ =>
        simp only [Tree.seq.injEq] at ht
        obtain ⟨rfl, -⟩ := List.append_inj' ht.2 rfl
        exact hinit u hu
      | eoi | expand | group => cases ht
    | guarded h =>
      simp only [Tree.seq.injEq] at ht
      obtain ⟨rfl, -⟩ := List.append_inj' ht.2 rfl
      exact eoiLast_of_seq hall h

/-- The parts of a rule that resolves. -/
theorem resolveRule_eq_ok {table : PatternTable} {limit : Nat} {re : Regex} {e : RuleExpr}
    (h : resolveRule table limit re = .ok e) : ∃ body ahead,
      splitLookahead re.root = .ok (body, ahead) ∧ resolveAll table limit {} body = .ok e.body ∧
      match ahead with
      | none => e.lookahead = none
      | some (_, inner) => ∃ s, resolveSet table {} inner = .ok s ∧ e.lookahead = some s := by
  unfold resolveRule at h
  obtain ⟨⟨body, ahead⟩, hsplit, h⟩ := bind_eq_ok.mp h
  refine ⟨body, ahead, hsplit, ?_⟩
  cases ahead with
  | none =>
    obtain ⟨_, hnone, h⟩ := bind_eq_ok.mp h
    obtain ⟨es, hes, h⟩ := bind_eq_ok.mp h
    cases hnone
    cases h
    exact ⟨hes, rfl⟩
  | some found =>
    simp only at h
    split at h
    · rename_i s hs
      obtain ⟨_, hsome, h⟩ := bind_eq_ok.mp h
      obtain ⟨es, hes, h⟩ := bind_eq_ok.mp h
      cases hsome
      cases h
      exact ⟨hes, s, hs, rfl⟩
    · obtain ⟨_, herror, -⟩ := bind_eq_ok.mp h
      cases herror

/-- **A rule that resolves means the same as its text.** -/
theorem ruleMeaning_of_resolveRule {table : PatternTable} (htable : table.Proper) {limit : Nat}
    {re : Regex} (hp : re.root.Proper) {e : RuleExpr} (h : resolveRule table limit re = .ok e) :
    RuleMeaning table re.root e := by
  obtain ⟨body, ahead, hsplit, hes, hahead⟩ := resolveRule_eq_ok h
  obtain ⟨es, lookahead⟩ := e
  unfold splitLookahead at hsplit
  split at hsplit
  · cases hsplit
  · rename_i r items hroot
    rw [hroot] at hp ⊢
    have hitems := Tree.proper_seq.mp hp
    split at hsplit
    · rename_i ra inner hlast
      cases hsplit
      obtain ⟨init, rfl⟩ := List.getLast?_eq_some_iff.mp hlast
      simp only [List.dropLast_concat] at hes
      obtain ⟨s, hs, hsome⟩ := hahead
      cases hsome
      refine .of_guarded (exprMeaning_of_resolveAll htable (fun t ht => ?_) hes)
        (setMeaning_of_resolveSet htable ?_ hs)
      · exact hitems t (by simp [ht])
      · exact Tree.proper_notFollowedBy.mp (hitems (.notFollowedBy ra inner) (by simp))
    · rename_i hlast
      cases hsplit
      cases hahead
      have hall := exprMeaning_of_resolveAll htable hitems hes
      refine .of_plain ?_ ?_ (exprMeaning_seq r hall).begins (eoiLast_of_seq hall)
      · rintro r' ra init ahead heq
        simp only [Tree.seq.injEq] at heq
        exact hlast ra ahead (by rw [heq.2]; simp)
      · intro w
        rw [Expr.language]
        exact matches_seq_iff hall
  · rename_i hnot hseq
    cases hsplit
    cases hahead
    have hall := exprMeaning_of_resolveAll htable (by simpa using hp) hes
    obtain ⟨e, rfl, he⟩ : ∃ e, es = [e] ∧ ExprMeaning table {} re.root e := by
      cases hall with
      | cons he hnil => cases hnil; exact ⟨_, rfl, he⟩
    refine .of_plain (fun r' ra init ahead heq => hseq _ _ heq) ?_ ?_ ?_
    · intro w
      rw [he.matches_iff, Expr.language, seqLanguage, seqLanguage, mul_one]
    · intro w hw
      rw [Expr.begun, seqBegun, seqBegun, mul_one] at hw
      rcases (Language.mem_add _ _ _).mp hw with hw | hw
      · exact he.begins hw
      · exact .all (he.matches_iff.mpr hw)
    · exact fun hlast => @Expr.EoiLast.seq [] e (by simp) (he.eoiLast hlast)

/-- The patterns of a frozen grammar come from texts. -/
theorem patternTable_proper {g : Grammar} (hg : g.Frozen) : (patternTable g).1.Proper := by
  intro name p hfind
  unfold PatternTable.find at hfind
  split at hfind
  · cases hfind
  · split at hfind
    · rename_i q hq
      cases hfind
      exact (hg.fromText.1 _ (Array.mem_toList_iff.mp (List.mem_of_find?_eq_some hq))).proper
    · cases hfind

/-- A rule that the automaton matches is one that resolves. -/
theorem resolveRule_of_roleOf {g : Grammar} {table : PatternTable} {limit : Nat} {r : LexicalRule}
    {e : RuleExpr} (h : (roleOf g table limit r).1 = .matched e) :
    resolveRule table limit r.regex = .ok e := by
  unfold roleOf at h
  simp only at h
  split at h
  · cases h
  · split at h
    · cases h
    · split at h
      · split at h <;> cases h
      · split at h
        · rename_i e' he
          cases h
          exact he
        · cases h

/-- **The rules of a frozen grammar that the automaton matches mean what is written.** -/
theorem ruleMeaning_of_roleOf {g : Grammar} (hg : g.Frozen) {limit : Nat} {r : LexicalRule}
    (hr : r ∈ g.lexicalRules) {e : RuleExpr}
    (h : (roleOf g (patternTable g).1 limit r).1 = .matched e) :
    RuleMeaning (patternTable g).1 r.regex.root e :=
  ruleMeaning_of_resolveRule (patternTable_proper hg) (hg.fromText.2 r hr).proper
    (resolveRule_of_roleOf h)

end GrammarTables.Lexical
