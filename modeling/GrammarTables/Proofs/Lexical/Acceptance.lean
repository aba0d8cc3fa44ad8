import GrammarTables.Proofs.Lexical.Leftover
import GrammarTables.Proofs.Lexical.Resolve
/-
# What the fragments of rules accept

Rules are compiled one after the other into one automaton (`Nfa.Compiles`).  The fragment of a rule
leads from its entry to its exit by the words that the body of the rule matches, and by no others.
That holds in the automaton as it is when the rule has been compiled and stays so, whatever is
compiled later (`compileRule_accepts`).

Trees need not come from texts here, so a character may be any number.  Sets and languages are
therefore compared on code points and the mark for the end of the input only (`Spells`, `Alike`).
-/

namespace GrammarTables.Lexical

open Regex (Tree TextRange FlagChange SetOp)

/-! ## 1. Letters up to the end of the input -/

/-- Up to the mark for the end of the input, the members of `s` are those of `S`. -/
def Spells (s : CharSet) (S : Set Nat) : Prop := ∀ c ≤ endMark, (c ∈ s ↔ c ∈ S)

theorem spells_members (s : CharSet) : Spells s (members s) := fun _ _ => Iff.rfl

theorem Spells.combine {s t : CharSet} {S T : Set Nat} (hs : Spells s S) (ht : Spells t T)
    (op : SetOp) : Spells (combine op s t) (setAlgebra op S T) := by
  intro c hc
  cases op with
  | union => exact CharSet.mem_union.trans (or_congr (hs c hc) (ht c hc))
  | intersection => exact CharSet.mem_inter.trans (and_congr (hs c hc) (ht c hc))
  | difference =>
    rw [Lexical.combine, setAlgebra, CharSet.mem_diff, hs c hc, ht c hc]
    exact ⟨fun h => ⟨h.1, h.2.1⟩, fun h => ⟨h.1, h.2, hc⟩⟩

/-- The languages have the same words over code points and the mark for the end of the input. -/
def Alike (L M : Language Nat) : Prop := ∀ w : List Nat, (∀ c ∈ w, c ≤ endMark) → (w ∈ L ↔ w ∈ M)

namespace Alike

variable {L L' M M' : Language Nat}

theorem refl (L : Language Nat) : Alike L L := fun _ _ => Iff.rfl

theorem symm (h : Alike L M) : Alike M L := fun w hw => (h w hw).symm

theorem oneOf {s : CharSet} {S : Set Nat} (h : Spells s S) : Alike (oneOf S) (letters s) := by
  intro w hw
  rw [mem_oneOf, mem_letters]
  constructor
  · rintro ⟨d, hd, rfl⟩
    exact ⟨d, (h d (hw d (by simp))).mpr hd, rfl⟩
  · rintro ⟨d, hd, rfl⟩
    exact ⟨d, (h d (hw d (by simp))).mp hd, rfl⟩

theorem add (h : Alike L M) (h' : Alike L' M') : Alike (L + L') (M + M') :=
  fun w hw => or_congr (h w hw) (h' w hw)

theorem mul (h : Alike L M) (h' : Alike L' M') : Alike (L * L') (M * M') := by
  have hle : ∀ {L L' M M' : Language Nat}, Alike L M → Alike L' M' →
      ∀ w : List Nat, (∀ c ∈ w, c ≤ endMark) → w ∈ L * L' → w ∈ M * M' := by
    intro L L' M M' h h' w hw hmem
    obtain ⟨u, hu, v, hv, rfl⟩ := Language.mem_mul.mp hmem
    exact Language.append_mem_mul ((h u fun c hc => hw c (by simp [hc])).mp hu)
      ((h' v fun c hc => hw c (by simp [hc])).mp hv)
  exact fun w hw => ⟨hle h h' w hw, hle h.symm h'.symm w hw⟩

theorem pow (h : Alike L M) (n : Nat) : Alike (L ^ n) (M ^ n) := by
  induction n with
  | zero => rw [pow_zero, pow_zero]; exact .refl 1
  | succ n ih => rw [pow_succ, pow_succ]; exact ih.mul h

theorem copies (h : Alike L M) (min : Nat) (max : Option Nat) :
    Alike (copies L min max) (copies M min max) :=
  fun w hw => exists_congr fun n => and_congr_right fun _ => h.pow n w hw

end Alike

/-! ## 2. Sets -/

/-- A tree denotes one set at most. -/
theorem DenotesSet.unique {table : PatternTable} {flags : Flags} {t : Tree} {S : Set Nat}
    (h : DenotesSet table flags t S) : ∀ {T : Set Nat}, DenotesSet table flags t T → T = S := by
  induction h with
  | char => intro T h; cases h; rfl
  | set => intro T h; cases h; rfl
  | any => intro T h; cases h; rfl
  | expand hfind _ ih =>
    intro T h
    cases h with
    | expand hfind' hT =>
      rw [hfind] at hfind'
      cases hfind'
      exact ih hT
  | group _ ih =>
    intro T h
    cases h with
    | group hT => exact ih hT
  | altNil => intro T h; cases h; rfl
  | altCons _ _ ih ih' =>
    intro T h
    cases h with
    | altCons hS hT => rw [ih hS, ih' hT]
  | algebra _ _ ih ih' =>
    intro T h
    cases h with
    | algebra hS hT => rw [ih hS, ih' hT]

/-- The tree denotes a set, with the members of `s`. -/
def DenotesSpelt (table : PatternTable) (flags : Flags) (t : Tree) (s : CharSet) : Prop :=
  ∃ S, DenotesSet table flags t S ∧ Spells s S

/-- `pattern` gives the sets of named patterns. -/
def GivesSpelt (table : PatternTable) (pattern : String → Flags → Except Cause CharSet) : Prop :=
  ∀ (name : String) (flags : Flags) (s : CharSet), pattern name flags = .ok s →
    ∃ p, table.find name = .ok p ∧ DenotesSpelt table flags p.regex.root s

mutual

/-- **A tree that resolves to a set denotes its members.** -/
theorem denotesSpelt_of_setWith {table : PatternTable}
    {pattern : String → Flags → Except Cause CharSet} (hpattern : GivesSpelt table pattern) :
    ∀ (t : Tree) {flags : Flags} {s : CharSet}, setWith pattern flags t = .ok s →
      DenotesSpelt table flags t s
  | .char r c, flags, s, h => by
    rw [setWith] at h
    cases h
    exact ⟨_, .char flags r c, flags.members_fold_single c ▸ spells_members _⟩
  | .set r k, flags, s, h => by
    rw [setWith] at h
    cases h
    exact ⟨_, .set flags r k, flags.members_resolve k ▸ spells_members _⟩
  | .any r, flags, s, h => by
    rw [setWith] at h
    cases h
    exact ⟨_, .any flags r, flags.members_dot ▸ spells_members _⟩
  | .expand r name, flags, s, h => by
    rw [setWith] at h
    split at h
    · rename_i u hu
      cases h
      obtain ⟨p, hfind, S, hS, hspells⟩ := hpattern _ _ _ hu
      exact ⟨S, .expand hfind hS, hspells⟩
    · cases h
  | .group r change inner, flags, s, h => by
    rw [setWith] at h
    obtain ⟨S, hS, hspells⟩ := denotesSpelt_of_setWith hpattern inner h
    exact ⟨S, .group hS, hspells⟩
  | .alt r items, flags, s, h => by
    rw [setWith] at h
    obtain ⟨S, hS, hspells⟩ := denotesSpelt_of_unionWith hpattern items h
    refine ⟨S, hS, fun c hc => (hspells c hc).trans ?_⟩
    simp
  | .algebra r op left right, flags, s, h => by
    rw [setWith] at h
    obtain ⟨u, hl, h⟩ := bind_eq_ok.mp h
    obtain ⟨v, hr, h⟩ := bind_eq_ok.mp h
    cases h
    obtain ⟨S, hS, hu⟩ := denotesSpelt_of_setWith hpattern left hl
    obtain ⟨T, hT, hv⟩ := denotesSpelt_of_setWith hpattern right hr
    exact ⟨_, .algebra hS hT, hu.combine hv op⟩
  | .empty r, flags, s, h => by rw [setWith] at h; cases h
  | .eoi r, flags, s, h => by rw [setWith] at h; cases h
  | .seq r _, flags, s, h => by rw [setWith] at h; cases h
  | .notFollowedBy r _, flags, s, h => by rw [setWith] at h; cases h
  | .repeated r _ _ _, flags, s, h => by rw [setWith] at h; cases h
  | .placeholder r, flags, s, h => by rw [setWith] at h; cases h

/-- The same for alternatives, added to a set. -/
theorem denotesSpelt_of_unionWith {table : PatternTable}
    {pattern : String → Flags → Except Cause CharSet} (hpattern : GivesSpelt table pattern) :
    ∀ (ts : List Tree) {flags : Flags} {s u : CharSet}, unionWith pattern flags s ts = .ok u →
      ∃ S, (∀ {r : TextRange}, DenotesSet table flags (.alt r ts) S) ∧
        ∀ c ≤ endMark, (c ∈ u ↔ c ∈ s ∨ c ∈ S)
  | [], flags, s, u, h => by
    rw [unionWith] at h
    cases h
    exact ⟨∅, .altNil flags _, fun c _ => by simp⟩
  | t :: ts, flags, s, u, h => by
    rw [unionWith] at h
    obtain ⟨v, ht, h⟩ := bind_eq_ok.mp h
    obtain ⟨S, hS, hv⟩ := denotesSpelt_of_setWith hpattern t ht
    obtain ⟨T, hT, hu⟩ := denotesSpelt_of_unionWith hpattern ts h
    refine ⟨S ∪ T, .altCons hS hT, fun c hc => ?_⟩
    rw [hu c hc, CharSet.mem_union, hv c hc, or_assoc, Set.mem_union]

end

theorem denotesSpelt_of_resolveSet {table : PatternTable} {flags : Flags} {t : Tree} {s : CharSet}
    (h : resolveSet table flags t = .ok s) : DenotesSpelt table flags t s := by
  have hpattern : ∀ depth, GivesSpelt table (patternSet table depth) := by
    intro depth
    induction depth with
    | zero =>
      intro name flags s h
      rw [patternSet] at h
      obtain ⟨_, -, h⟩ := bind_eq_ok.mp h
      cases h
    | succ depth ih =>
      intro name flags s h
      rw [patternSet] at h
      obtain ⟨p, hfind, h⟩ := bind_eq_ok.mp h
      split at h
      · rename_i u hu
        cases h
        exact ⟨p, hfind, denotesSpelt_of_setWith ih _ hu⟩
      · cases h
  exact denotesSpelt_of_setWith (hpattern _) t h

/-! ## 3. Trees -/

/-- `u` is a part of the tree, or of a pattern that the tree refers to. -/
inductive Occurs (table : PatternTable) (u : Tree) : Tree → Prop
  | here {t : Tree} : u ∈ t.preorder → Occurs table u t
  | inPattern {t : Tree} {r : TextRange} {name : String} {p : NamedPattern} :
      .expand r name ∈ t.preorder → table.find name = .ok p → Occurs table u p.regex.root →
      Occurs table u t

/-- The two counts of a repetition are in order, wherever there is one. -/
def OrderedCounts (table : PatternTable) (t : Tree) : Prop :=
  ∀ (r : TextRange) (inner : Tree) (min : Nat) (max : Option Nat),
    Occurs table (.repeated r inner min max) t → ∀ m ∈ max, min ≤ m

theorem OrderedCounts.part {table : PatternTable} {t u : Tree} (h : OrderedCounts table t)
    (hpart : ∀ x ∈ u.preorder, x ∈ t.preorder) : OrderedCounts table u := by
  intro r inner min max hoccurs
  refine h r inner min max ?_
  cases hoccurs with
  | here hmem => exact .here (hpart _ hmem)
  | inPattern hmem hfind hoccurs => exact .inPattern (hpart _ hmem) hfind hoccurs

/-- The words of the expression are the texts that the tree matches. -/
def Expresses (table : PatternTable) (flags : Flags) (t : Tree) (e : Expr) : Prop :=
  Alike (textsOf table flags t) e.language

/-- `pattern` gives the expressions of named patterns. -/
def GivesExpressed (table : PatternTable) (pattern : String → Flags → Except Cause Expr) : Prop :=
  ∀ (name : String) (flags : Flags) (e : Expr), pattern name flags = .ok e →
    ∃ p, table.find name = .ok p ∧
      (OrderedCounts table p.regex.root → Expresses table flags p.regex.root e)

section Lists

variable {table : PatternTable} {flags : Flags} {r : TextRange} {ts : List Tree} {es : List Expr}

theorem alike_seq (h : List.Forall₂ (Expresses table flags) ts es) :
    Alike (textsOf table flags (.seq r ts)) (seqLanguage es) := by
  induction h with
  | nil => rw [textsOf_seq_nil, seqLanguage]; exact .refl 1
  | cons ht _ ih => rw [textsOf_seq_cons, seqLanguage]; exact ht.mul ih

theorem alike_alt (h : List.Forall₂ (Expresses table flags) ts es) :
    Alike (textsOf table flags (.alt r ts)) (altLanguage es) := by
  induction h with
  | nil => rw [textsOf_alt_nil, altLanguage]; exact .refl 0
  | cons ht _ ih => rw [textsOf_alt_cons, altLanguage]; exact ht.add ih

/-- The items of a list are parts of what holds the list. -/
theorem OrderedCounts.items {t : Tree} (h : OrderedCounts table t)
    (hitems : ∀ x, x ∈ Tree.preorderAll ts → x ∈ t.preorder) : ∀ u ∈ ts, OrderedCounts table u :=
  fun u hu => h.part fun x hx => hitems x (Tree.mem_preorderAll.mpr ⟨u, hu, hx⟩)

end Lists

mutual

/-- **A tree that resolves to an expression matches its words.** -/
theorem expresses_of_exprWith {table : PatternTable}
    {pattern : String → Flags → Except Cause Expr} (hpattern : GivesExpressed table pattern)
    {limit : Nat} : ∀ (t : Tree) {flags : Flags} {e : Expr}, OrderedCounts table t →
      exprWith (resolveSet table) pattern limit flags t = .ok e → Expresses table flags t e
  | .empty r, flags, e, ht, h => by
    rw [exprWith] at h
    cases h
    rw [Expresses, textsOf_empty, Expr.language, seqLanguage]
    exact .refl 1
  | .char r c, flags, e, ht, h => by
    rw [exprWith] at h
    cases h
    rw [Expresses, textsOf_char, Expr.language, ← flags.members_fold_single]
    exact .oneOf (spells_members _)
  | .set r k, flags, e, ht, h => by
    rw [exprWith] at h
    cases h
    rw [Expresses, textsOf_set, Expr.language, ← flags.members_resolve]
    exact .oneOf (spells_members _)
  | .any r, flags, e, ht, h => by
    rw [exprWith] at h
    cases h
    rw [Expresses, textsOf_any, Expr.language, ← flags.members_dot]
    exact .oneOf (spells_members _)
  | .eoi r, flags, e, ht, h => by
    rw [exprWith] at h
    cases h
    rw [Expresses, textsOf_eoi, Expr.language]
    exact .refl _
  | .expand r name, flags, e, ht, h => by
    rw [exprWith] at h
    split at h
    · rename_i e' he
      cases h
      obtain ⟨p, hfind, hmeaning⟩ := hpattern _ _ _ he
      rw [Expresses, textsOf_expand hfind]
      refine hmeaning fun _ _ _ _ hoccurs => ht _ _ _ _ (.inPattern (r := r) ?_ hfind hoccurs)
      simp [Tree.preorder]
    · cases h
  | .seq r items, flags, e, ht, h => by
    rw [exprWith] at h
    obtain ⟨es, hes, h⟩ := bind_eq_ok.mp h
    cases h
    rw [Expresses, Expr.language]
    exact alike_seq (expresses_of_exprsWith hpattern items
      (ht.items fun x hx => by simp [Tree.preorder, hx]) hes)
  | .alt r items, flags, e, ht, h => by
    rw [exprWith] at h
    obtain ⟨es, hes, h⟩ := bind_eq_ok.mp h
    cases h
    rw [Expresses, Expr.language]
    exact alike_alt (expresses_of_exprsWith hpattern items
      (ht.items fun x hx => by simp [Tree.preorder, hx]) hes)
  | .group r change inner, flags, e, ht, h => by
    rw [exprWith] at h
    rw [Expresses, textsOf_group]
    exact expresses_of_exprWith hpattern inner (ht.part fun x hx => by simp [Tree.preorder, hx]) h
  | .repeated r inner min max, flags, e, ht, h => by
    have hmax : ∀ m ∈ max, min ≤ m := ht r inner min max (.here (by simp [Tree.preorder]))
    rw [exprWith] at h
    rw [Expresses, textsOf_repeated hmax]
    split at h
    · cases h
    · split at h
      · rename_i hzero
        simp only [Bool.and_eq_true, decide_eq_true_eq] at hzero
        obtain ⟨rfl, rfl⟩ := hzero
        cases h
        rw [Expr.language, copies_zero, copies_zero]
        exact .refl 1
      · obtain ⟨e', he, h⟩ := bind_eq_ok.mp h
        cases h
        rw [Expr.language]
        exact (expresses_of_exprWith hpattern inner
          (ht.part fun x hx => by simp [Tree.preorder, hx]) he).copies min max
  | .algebra r op left right, flags, e, ht, h => by
    rw [exprWith] at h
    obtain ⟨s, hs, h⟩ := bind_eq_ok.mp h
    cases h
    obtain ⟨S, hS, hspells⟩ := denotesSpelt_of_resolveSet hs
    rw [Expresses, Expr.language, textsOf_algebra fun T => ⟨hS.unique, fun hT => hT ▸ hS⟩]
    exact .oneOf hspells
  | .notFollowedBy r _, flags, e, ht, h => by rw [exprWith] at h; cases h
  | .placeholder r, flags, e, ht, h => by rw [exprWith] at h; cases h

/-- The same for trees one by one. -/
theorem expresses_of_exprsWith {table : PatternTable}
    {pattern : String → Flags → Except Cause Expr} (hpattern : GivesExpressed table pattern)
    {limit : Nat} : ∀ (ts : List Tree) {flags : Flags} {es : List Expr},
      (∀ t ∈ ts, OrderedCounts table t) →
      exprsWith (resolveSet table) pattern limit flags ts = .ok es →
      List.Forall₂ (Expresses table flags) ts es
  | [], flags, es, hts, h => by
    rw [exprsWith] at h
    cases h
    exact .nil
  | t :: ts, flags, es, hts, h => by
    rw [exprsWith] at h
    obtain ⟨e, he, h⟩ := bind_eq_ok.mp h
    obtain ⟨es', hes, h⟩ := bind_eq_ok.mp h
    cases h
    exact .cons (expresses_of_exprWith hpattern t (hts t (by simp)) he)
      (expresses_of_exprsWith hpattern ts (fun t ht => hts t (by simp [ht])) hes)

end

theorem expresses_of_resolveAll {table : PatternTable} {limit : Nat} {flags : Flags}
    {ts : List Tree} {es : List Expr} (hts : ∀ t ∈ ts, OrderedCounts table t)
    (h : resolveAll table limit flags ts = .ok es) :
    List.Forall₂ (Expresses table flags) ts es := by
  have hpattern : ∀ depth, GivesExpressed table (patternExpr table limit depth) := by
    intro depth
    induction depth with
    | zero =>
      intro name flags e h
      rw [patternExpr] at h
      obtain ⟨_, -, h⟩ := bind_eq_ok.mp h
      cases h
    | succ depth ih =>
      intro name flags e h
      rw [patternExpr] at h
      obtain ⟨p, hfind, h⟩ := bind_eq_ok.mp h
      split at h
      · rename_i u hu
        cases h
        exact ⟨p, hfind, fun hp => expresses_of_exprWith ih _ hp hu⟩
      · cases h
  exact expresses_of_exprsWith (hpattern _) ts hts h

/-! ## 4. Rules -/

/-- The body of a rule, and the lookahead at its end if there is one. -/
inductive RuleSplit : Tree → Tree → Option Tree → Prop
  | plain {t : Tree} : (∀ r ra items ahead, t ≠ .seq r (items ++ [.notFollowedBy ra ahead])) →
      RuleSplit t t none
  | guarded (r ra : TextRange) (items : List Tree) (ahead : Tree) :
      RuleSplit (.seq r (items ++ [.notFollowedBy ra ahead])) (.seq r items) (some ahead)

/-- A rule is split in one way. -/
theorem RuleSplit.unique {t body body' : Tree} {ahead ahead' : Option Tree}
    (h : RuleSplit t body ahead) (h' : RuleSplit t body' ahead') :
    body = body' ∧ ahead = ahead' := by
  cases h with
  | plain hnot =>
    cases h' with
    | plain => exact ⟨rfl, rfl⟩
    | guarded => exact absurd rfl (hnot _ _ _ _)
  | guarded r ra items ahead =>
    generalize ht : Tree.seq r (items ++ [.notFollowedBy ra ahead]) = t at h'
    cases h' with
    | plain hnot => exact absurd ht.symm (hnot _ _ _ _)
    | guarded =>
      simp only [Tree.seq.injEq] at ht
      obtain ⟨rfl, ht⟩ := ht
      obtain ⟨rfl, hlast⟩ := List.append_inj' ht rfl
      cases hlast
      exact ⟨rfl, rfl⟩

/-- **A rule that resolves matches the words of its body**, and its lookahead is what the tree at
its end denotes. -/
theorem ruleSplit_of_resolveRule {table : PatternTable} {limit : Nat} {re : Regex} {e : RuleExpr}
    (hcounts : OrderedCounts table re.root) (h : resolveRule table limit re = .ok e) :
    ∃ body ahead, RuleSplit re.root body ahead ∧
      Alike (textsOf table {} body) (Expr.seq e.body).language ∧
      Option.Rel (DenotesSpelt table {}) ahead e.lookahead := by
  obtain ⟨body, ahead, hsplit, hes, hahead⟩ := resolveRule_eq_ok h
  obtain ⟨es, lookahead⟩ := e
  unfold splitLookahead at hsplit
  rw [Expr.language]
  split at hsplit
  · cases hsplit
  · rename_i r items hroot
    rw [hroot] at hcounts ⊢
    have hitems : ∀ u ∈ items, OrderedCounts table u :=
      hcounts.items fun x hx => by simp [Tree.preorder, hx]
    split at hsplit
    · rename_i ra inner hlast
      cases hsplit
      obtain ⟨init, rfl⟩ := List.getLast?_eq_some_iff.mp hlast
      simp only [List.dropLast_concat] at hes
      obtain ⟨s, hs, hsome⟩ := hahead
      cases hsome
      refine ⟨_, _, .guarded r ra init inner, alike_seq (expresses_of_resolveAll ?_ hes),
        .some (denotesSpelt_of_resolveSet hs)⟩
      exact fun t ht => hitems t (by simp [ht])
    · rename_i hlast
      cases hsplit
      cases hahead
      refine ⟨_, none, .plain ?_, alike_seq (expresses_of_resolveAll hitems hes), .none⟩
      rintro r' ra init ahead heq
      simp only [Tree.seq.injEq] at heq
      exact hlast ra ahead (by rw [heq.2]; simp)
  · rename_i hnot hseq
    cases hsplit
    cases hahead
    refine ⟨re.root, none, .plain fun r' ra init ahead heq => hseq _ _ heq, ?_, .none⟩
    cases expresses_of_resolveAll (by simpa using hcounts) hes with
    | cons he hnil =>
      cases hnil
      rwa [seqLanguage, seqLanguage, mul_one]

/-! ## 5. Automata that grow -/

/-- A rule is compiled into the automaton `a`, which becomes `b` whether that succeeds or not. -/
inductive Nfa.Compiles (a b : Nfa) : Prop
  | ok {table : PatternTable} {limit : Nat} {re : Regex} {c : CompiledRule} :
      compileRule table limit re a = .ok c b → Compiles a b
  | error {table : PatternTable} {limit : Nat} {re : Regex} {e : ResolveError} :
      compileRule table limit re a = .error e b → Compiles a b

/-- A rule that compiles is built from what it resolves to. -/
theorem compileRule_eq_ok {table : PatternTable} {limit : Nat} {re : Regex} {a b : Nfa}
    {c : CompiledRule} (h : compileRule table limit re a = .ok c b) :
    ∃ e, resolveRule table limit re = .ok e ∧ e.build a = (c, b) := by
  have hgives := gives_compileRule table limit re a
  cases hresolve : resolveRule table limit re with
  | ok e =>
    rw [hresolve] at hgives
    have heq : EStateM.Result.ok c b = .ok (e.build a).1 (e.build a).2 := h.symm.trans hgives
    cases heq
    exact ⟨e, rfl, rfl⟩
  | error x =>
    rw [hresolve] at hgives
    obtain ⟨b', herror, -⟩ := hgives
    cases h.symm.trans herror

/-- Compiling a rule adds moves from new states only. -/
theorem Nfa.Compiles.grows {a b : Nfa} (h : a.Compiles b) : a.Grows a.size b := by
  cases h with
  | ok h =>
    obtain ⟨e, -, hbuild⟩ := compileRule_eq_ok h
    have hgrows := grows_ruleBuild e a
    rwa [hbuild] at hgrows
  | @error table limit re e h =>
    have hgives := gives_compileRule table limit re a
    rw [resolveRule_of_compileRule h] at hgives
    obtain ⟨b', herror, hgrows⟩ := hgives
    cases h.symm.trans herror
    exact hgrows

/-- So does compiling any number of rules. -/
theorem grows_of_compiles {a b : Nfa} (h : Relation.ReflTransGen Nfa.Compiles a b) :
    a.Grows a.size b := by
  induction h with
  | refl => exact .refl a a.size
  | tail _ hstep ih => exact ih.trans (hstep.grows.mono ih.size_le)

/-- A path from what was added between `a` and `b` stays there, whatever is added later. -/
theorem Path.of_later {a b later : Nfa} {lo : Nat} {ds : SilentMoves} {dr : ReadingMoves}
    (ha : a.Bounded) (hadds : Adds a b ds dr)
    (hwithin : Within (From lo a.size b.size) (Inside a.size b.size) ds dr)
    (hgrows : b.Grows b.size later) {s t : Nat} {w : List Nat}
    (h : Path later.silent later.reading s w t) (hs : Inside a.size b.size s) :
    Path ds dr s w t := by
  induction h with
  | refl s => exact .refl s
  | silent hm _ ih =>
    rcases hgrows.silent_new hm with hm | ⟨hnew, -⟩
    · rw [hadds.silent_eq, List.mem_append] at hm
      rcases hm with hm | hm
      · exact .silent hm (ih (hwithin.silent _ hm).2)
      · exact absurd (ha.silent hm).1 (Nat.not_lt.mpr hs.1)
    · exact absurd hs.2 (Nat.not_lt.mpr hnew.1)
  | read hm hc _ ih =>
    rcases hgrows.reading_new hm with hm | ⟨hnew, -⟩
    · rw [hadds.reading_eq, List.mem_append] at hm
      rcases hm with hm | hm
      · exact .read hm hc (ih (hwithin.read _ hm).2)
      · exact absurd (ha.reading hm).1 (Nat.not_lt.mpr hs.1)
    · exact absurd hs.2 (Nat.not_lt.mpr hnew.1)

/-- **What is built for an expression accepts its language**, now and later. -/
theorem path_build_iff {a later : Nfa} (ha : a.Bounded) (e : Expr)
    (hgrows : (e.build a).2.Grows (e.build a).2.size later) {w : List Nat} :
    Path later.silent later.reading (e.build a).1.start w (e.build a).1.stop ↔ w ∈ e.language := by
  obtain ⟨hstart, -, ds, dr, hadds, hseg⟩ := builds_build e a
  constructor
  · intro h
    obtain ⟨K, hKs, hKt, hK⟩ := hseg.sound
    have hpath := Path.of_later ha hadds hseg.within hgrows h hstart
    have hmem := hpath.append_mem hK (hKt Language.nil_mem_one)
    rw [List.append_nil] at hmem
    exact hKs hmem
  · intro hw
    refine (hseg.complete w hw).mono (fun m hm => hgrows.silent ?_) fun m hm => hgrows.reading ?_
    · rw [hadds.silent_eq]
      exact List.mem_append_left _ hm
    · rw [hadds.reading_eq]
      exact List.mem_append_left _ hm

/-! ## 6. The fragment of a rule -/

/-- **The fragment of a rule accepts what its body matches**, in the automaton that was built so
far and in every one that it becomes when more rules are compiled.  Its lookahead is the set that
the tree at its end denotes.  What was compiled is what is built for the resolved rule. -/
theorem compileRule_accepts {table : PatternTable} {limit : Nat} {re : Regex} {a b later : Nfa}
    {c : CompiledRule} (hcounts : OrderedCounts table re.root)
    (hbefore : Relation.ReflTransGen Nfa.Compiles {} a)
    (hrule : compileRule table limit re a = .ok c b)
    (hlater : Relation.ReflTransGen Nfa.Compiles b later) :
    (∃ e, resolveRule table limit re = .ok e ∧ e.build a = (c, b)) ∧
    ∃ body ahead, RuleSplit re.root body ahead ∧
      (∀ w : List Nat, (∀ x ∈ w, x ≤ endMark) →
        (Path later.silent later.reading c.fragment.start w c.fragment.stop ↔
          Matches table {} body w)) ∧
      Option.Rel (fun t s => ∃ S, DenotesSet table {} t S ∧ ∀ x ≤ endMark, (x ∈ s ↔ x ∈ S))
        ahead c.lookahead := by
  obtain ⟨e, hresolve, hbuild⟩ := compileRule_eq_ok hrule
  obtain ⟨body, ahead, hsplit, halike, hahead⟩ := ruleSplit_of_resolveRule hcounts hresolve
  have hempty : Nfa.Bounded {} := ⟨by simp, by simp⟩
  have hbounded : a.Bounded := hempty.grows (grows_of_compiles hbefore)
  have hgrows := grows_of_compiles hlater
  cases hbuild
  refine ⟨⟨e, hresolve, rfl⟩, body, ahead, hsplit, fun w hw => ?_, hahead⟩
  exact (path_build_iff hbounded (.seq e.body) hgrows).trans (halike w hw).symm

/-! ## 7. A rule -/

/-- A pattern for two letters. -/
def letterPattern : NamedPattern := { name := "letter", regex := (Regex.parse "[ab]" none).1 }

/-- A table with that pattern alone. -/
def letterTable : PatternTable := { patterns := [letterPattern], unusable := [] }

/-- One or two such letters in either case, where no digit `0` follows. -/
def letterRule : Regex := (Regex.parse "(?i:{letter}){1,2}(?!0)" none).1

/-- The tree of what `letterRule` repeats. -/
def letterTree : Tree :=
  .group ⟨0, 13⟩ (some { caseInsensitive := some true }) (.expand ⟨4, 12⟩ "letter")

theorem root_letterPattern :
    letterPattern.regex.root = .set ⟨0, 4⟩ { members := .range 0x61 0x62 } := by
  cbv

theorem root_letterRule : letterRule.root = .seq ⟨0, 23⟩
    ([.repeated ⟨0, 18⟩ letterTree 1 (some 2)] ++
      [.notFollowedBy ⟨18, 23⟩ (.char ⟨21, 22⟩ 0x30)]) := by
  cbv

theorem orderedCounts_letterRule : OrderedCounts letterTable letterRule.root := by
  intro r inner min max h
  rw [root_letterRule] at h
  cases h with
  | here hmem =>
    simp only [letterTree, Tree.preorder, Tree.preorderAll, List.nil_append, List.cons_append,
      List.append_nil, List.mem_cons, List.not_mem_nil, reduceCtorEq, or_false,
      false_or, Tree.repeated.injEq] at hmem
    obtain ⟨-, -, rfl, rfl⟩ := hmem
    simp
  | inPattern hmem hfind h =>
    simp only [letterTree, Tree.preorder, Tree.preorderAll, List.nil_append, List.cons_append,
      List.append_nil, List.mem_cons, List.not_mem_nil, reduceCtorEq, or_false,
      false_or, Tree.expand.injEq] at hmem
    obtain ⟨-, rfl⟩ := hmem
    cases hfind
    rw [root_letterPattern] at h
    cases h with
    | here hmem => simp [Tree.preorder] at hmem
    | inPattern hmem => simp [Tree.preorder] at hmem

theorem matches_letterTree {c d : Nat} (hc : c = 0x61 ∨ c = 0x62)
    (hd : d = c ∨ d ∈ caseVariants c) : Matches letterTable {} letterTree [d] := by
  refine .group (.expand (p := letterPattern) rfl ?_)
  rw [root_letterPattern]
  refine .set (Or.inl ⟨c, ?_, hd.imp_right fun h => ⟨rfl, h⟩⟩)
  rcases hc with rfl | rfl <;> decide

/-- The text `aB` after a rule that failed and left a part of itself behind. -/
theorem compileRule_accepts_letterRule : ∃ c b,
    compileRule letterTable 1000 letterRule brokenLeftover = .ok c b ∧
    ∀ later, Relation.ReflTransGen Nfa.Compiles b later →
      Path later.silent later.reading c.fragment.start [0x61, 0x42] c.fragment.stop ∧
      ∃ s, c.lookahead = some s ∧ 0x30 ∈ s := by
  have hbefore : Relation.ReflTransGen Nfa.Compiles {} brokenLeftover :=
    .single (.error compileRule_brokenGrammar)
  obtain ⟨c, b, hrule⟩ : ∃ c b,
      compileRule letterTable 1000 letterRule brokenLeftover = .ok c b := by
    have hgives := gives_compileRule letterTable 1000 letterRule brokenLeftover
    have hok : (resolveRule letterTable 1000 letterRule).isOk = true := by decide +kernel
    cases hresolve : resolveRule letterTable 1000 letterRule with
    | ok e =>
      rw [hresolve] at hgives
      exact ⟨_, _, hgives⟩
    | error e =>
      rw [hresolve] at hok
      cases hok
  refine ⟨c, b, hrule, fun later hlater => ?_⟩
  obtain ⟨-, body, ahead, hsplit, hpath, hahead⟩ :=
    compileRule_accepts orderedCounts_letterRule hbefore hrule hlater
  rw [root_letterRule] at hsplit
  obtain ⟨rfl, rfl⟩ := hsplit.unique (.guarded _ _ _ _)
  constructor
  · refine (hpath _ (by decide)).mpr ?_
    have hall : ∀ w ∈ [[0x61], [0x42]], Matches letterTable {} letterTree w := by
      simp only [List.mem_cons, List.not_mem_nil, or_false, forall_eq_or_imp, forall_eq]
      exact ⟨matches_letterTree (Or.inl rfl) (Or.inl rfl),
        matches_letterTree (Or.inr rfl) (Or.inr (by decide +kernel))⟩
    exact .seqCons (v := []) (.repeated (by decide) (by simp) hall) (.seqNil _ _)
  · generalize hlook : c.lookahead = lookahead at hahead
    cases hahead with
    | some hs =>
      obtain ⟨S, hS, hiff⟩ := hs
      cases hS
      exact ⟨_, rfl, (hiff 0x30 (by decide)).mpr (Or.inl rfl)⟩

end GrammarTables.Lexical
