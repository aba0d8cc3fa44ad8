import GrammarTables.Proofs.Lexical.Resolve
import GrammarTables.Proofs.Regex.Reading
/-
# Character classes as unions of their items

An item of a class is a set, or the outside of a set.  A class keeps the two apart, so that letters
can be folded before anything is complemented, and still means the union of its items, or the
complement of that union: a folded set is searched for a character, and a folded set of which the
outside is meant must not contain it (`resolve_ofItems`).  All that is asked of folding is that it
keeps the empty set and unions (`CharSet.Additive`).

The classes that are read from a text are of this kind (`Tree.Listed`).
-/

namespace GrammarTables

/-! ## 1. Folding -/

/-- The empty set stays empty, and a union becomes the union of what its parts become. -/
structure CharSet.Additive (fold : CharSet → CharSet) : Prop where
  empty : fold .empty = .empty
  union : ∀ s t, fold (s.union t) = (fold s).union (fold t)

theorem CharSet.additive_id : Additive id := ⟨rfl, fun _ _ => rfl⟩

theorem CharSet.additive_caseFold : Additive caseFold where
  empty := ext fun c => by simp
  union s t := by
    refine ext fun c => ?_
    simp only [mem_caseFold, mem_union]
    constructor
    · rintro ((h | h) | ⟨d, h | h, hd⟩)
      · exact .inl (.inl h)
      · exact .inr (.inl h)
      · exact .inl (.inr ⟨d, h, hd⟩)
      · exact .inr (.inr ⟨d, h, hd⟩)
    · rintro ((h | ⟨d, h, hd⟩) | (h | ⟨d, h, hd⟩))
      · exact .inl (.inl h)
      · exact .inr ⟨d, .inl h, hd⟩
      · exact .inl (.inr h)
      · exact .inr ⟨d, .inr h, hd⟩

theorem Lexical.Flags.additive_fold (flags : Flags) : CharSet.Additive flags.fold := by
  cases hcase : flags.caseInsensitive with
  | true =>
    have heq : flags.fold = CharSet.caseFold := funext fun s => by simp [Flags.fold, hcase]
    exact heq ▸ CharSet.additive_caseFold
  | false =>
    have heq : flags.fold = id := funext fun s => by simp [Flags.fold, hcase]
    exact heq ▸ CharSet.additive_id

namespace CharClass

/-! ## 2. Classes made of items -/

/-- A set, or the outside of a set. -/
def IsPlain (k : CharClass) : Prop := k.excluded = []

/-- The class of some items, added one after the other, or the outside of it. -/
def ofItems (items : List CharClass) (negated : Bool) : CharClass :=
  { items.foldl add {} with negated }

theorem add_of_isPlain (k : CharClass) {item : CharClass} (h : item.IsPlain) :
    k.add item = if item.negated then { k with excluded := k.excluded ++ [item.members] }
      else { k with members := k.members.union item.members } := by
  rw [IsPlain] at h
  simp [add, h]

section Items

variable {fold : CharSet → CharSet} {items : List CharClass} {c : Nat}

/-- The sets among the items are put together, whatever folding does to them. -/
theorem mem_fold_members (hfold : CharSet.Additive fold) : ∀ {items : List CharClass}
    {k : CharClass}, (∀ i ∈ items, i.IsPlain) → (c ∈ fold (items.foldl add k).members ↔
      c ∈ fold k.members ∨ ∃ i ∈ items, i.negated = false ∧ c ∈ fold i.members)
  | [], k, _ => by simp
  | i :: items, k, hplain => by
    obtain ⟨hi, hrest⟩ := List.forall_mem_cons.mp hplain
    rw [List.foldl_cons, mem_fold_members hfold hrest, add_of_isPlain k hi]
    cases hneg : i.negated with
    | true => simp [hneg]
    | false =>
      simp only [Bool.false_eq_true, if_false, hfold.union, CharSet.mem_union, List.mem_cons,
        exists_eq_or_imp, hneg, true_and, or_assoc]

/-- The sets of which an item is the outside are kept one by one. -/
theorem excluded_foldl_add : ∀ {items : List CharClass} {k : CharClass},
    (∀ i ∈ items, i.IsPlain) → (items.foldl add k).excluded
      = k.excluded ++ (items.filter (·.negated)).map (·.members)
  | [], k, _ => by simp
  | i :: items, k, hplain => by
    obtain ⟨hi, hrest⟩ := List.forall_mem_cons.mp hplain
    rw [List.foldl_cons, excluded_foldl_add hrest, add_of_isPlain k hi]
    cases hneg : i.negated <;> simp [hneg]

/-- A character is in the class if some item has it. -/
theorem mem_resolve_ofItems (hfold : CharSet.Additive fold) (hplain : ∀ i ∈ items, i.IsPlain) :
    c ∈ (ofItems items false).resolve fold ↔
      (∃ i ∈ items, i.negated = false ∧ c ∈ fold i.members) ∨
        ∃ i ∈ items, i.negated = true ∧ c ≤ maxCodePoint ∧ ¬ c ∈ fold i.members := by
  have hempty : ¬ c ∈ fold (CharClass.members {}) := by
    rw [show fold (CharClass.members {}) = .empty from hfold.empty]
    exact CharSet.not_mem_empty c
  simp only [resolve, ofItems, Bool.false_eq_true, if_false]
  rw [Lexical.mem_foldl_compl, mem_fold_members hfold hplain, excluded_foldl_add hplain]
  simp [hempty, and_assoc]

theorem mem_resolve_ofItems_true : c ∈ (ofItems items true).resolve fold ↔
    c ≤ maxCodePoint ∧ ¬ c ∈ (ofItems items false).resolve fold :=
  CharSet.mem_compl

end Items

/-- **Adding an item adds its characters**, whatever the item excludes itself. -/
theorem contains_add {k : CharClass} (hk : k.negated = false) (item : CharClass) (c : Nat) :
    (k.add item).contains c = (k.contains c || item.contains c) := by
  have hmem : c ∈ (k.add item).resolve id ↔ c ∈ k.resolve id ∨ c ∈ item.resolve id := by
    by_cases hplain : item.IsPlain
    · rw [add_of_isPlain k hplain]
      rw [IsPlain] at hplain
      cases hneg : item.negated with
      | true => simp [resolve, hk, hplain, hneg, Lexical.mem_foldl_compl, CharSet.mem_union]
      | false =>
        simp only [resolve, hk, hplain, hneg, Bool.false_eq_true, if_false, List.foldl_nil,
          Lexical.mem_foldl_compl, id, CharSet.mem_union]
        exact or_right_comm
    · rw [IsPlain] at hplain
      have hadd : k.add item = { k with members := k.members.union (item.resolve id) } := by
        simp [add, hplain]
      rw [hadd]
      generalize item.resolve id = s
      simp only [resolve, hk, Bool.false_eq_true, if_false, Lexical.mem_foldl_compl, id,
        CharSet.mem_union]
      exact or_right_comm
  rw [Bool.eq_iff_iff, Bool.or_eq_true]
  exact hmem

end CharClass

/-! ## 3. Classes that are read -/

namespace Regex

/-- Every class in the tree is made of sets and outsides of sets. -/
def Tree.Listed (t : Tree) : Prop := ∀ r k, .set r k ∈ t.preorder →
  ∃ items negated, (∀ i ∈ items, i.IsPlain) ∧ k = CharClass.ofItems items negated

theorem Tree.listed_of_parts {t : Tree} (hroot : ∀ r k, t ≠ .set r k)
    (hparts : ∀ u ∈ t.parts, u.Listed) : t.Listed := by
  intro r k hk
  rw [preorder_eq] at hk
  rcases List.mem_cons.mp hk with heq | hk
  · exact absurd heq.symm (hroot r k)
  · obtain ⟨u, hu, hk⟩ := mem_preorderAll.mp hk
    exact hparts u hu r k hk

theorem Tree.listed_set (items : List CharClass) (hplain : ∀ i ∈ items, i.IsPlain)
    (negated : Bool) (r : TextRange) : (Tree.set r (.ofItems items negated)).Listed := by
  intro r' k hk
  simp only [preorder, List.mem_singleton, Tree.set.injEq] at hk
  exact ⟨items, negated, hplain, hk.2⟩

/-- A set, or the outside of a set, is a class of one item. -/
theorem isPlain_eq_ofItems {k : CharClass} (h : k.IsPlain) :
    k = .ofItems [.of k.members] k.negated := by
  have hadd : CharClass.add {} (.of k.members) = { members := k.members } := by
    rw [CharClass.add_of_isPlain _ (by simp [CharClass.IsPlain, CharClass.of])]
    rfl
  obtain ⟨members, excluded, negated⟩ := k
  obtain rfl : excluded = [] := h
  rw [CharClass.ofItems, List.foldl_cons, List.foldl_nil, hadd]

theorem classOf_eq_ofItems (items : List ClassItem) (negated : Bool) :
    { classOf items with negated } = CharClass.ofItems (items.map (·.chars)) negated := by
  rw [CharClass.ofItems, List.foldl_map, classOf]

/-- The classes in the trees of a phrase are made of sets and outsides of sets. -/
def Phrase.Listed : Phrase → Prop
  | .primary t | .setExpr t | .term t => t.Listed
  | .seq ts | .alt _ ts => ∀ t ∈ ts, t.Listed

theorem sequence_listed {ts : List Tree} (h : ∀ t ∈ ts, t.Listed) (stop : Nat) :
    (Level.sequence ts stop).Listed := by
  match ts with
  | [] => exact Tree.listed_of_parts (by simp [Level.sequence]) fun u hu => nomatch hu
  | [t] => exact h t List.mem_cons_self
  | t :: u :: rest => exact Tree.listed_of_parts (by simp [Level.sequence]) h

theorem altTree_listed {ts : List Tree} (h : ∀ t ∈ ts, t.Listed) : (altTree ts).Listed := by
  match ts with
  | [] => exact Tree.listed_of_parts (by simp [altTree]) h
  | [t] => exact h t List.mem_cons_self
  | t :: u :: rest => exact Tree.listed_of_parts (by simp [altTree]) h

theorem groupTree_listed {kind : GroupKind} {range : TextRange} {t : Tree} (h : t.Listed) :
    (kind.tree range t).Listed := by
  cases kind <;>
    exact Tree.listed_of_parts (by simp [GroupKind.tree]) (List.forall_mem_singleton.mpr h)

theorem Derives.listed {p : Phrase} {xs : List Lexeme} (h : Derives p xs) :
    (∀ x ∈ xs, x.token.Full) → p.Listed := by
  induction h with
  | char | any | eoi | expand =>
    exact fun _ => Tree.listed_of_parts (by simp) fun u hu => nomatch hu
  | set k r =>
    intro hfull
    have hitem : IsItem k := hfull _ List.mem_cons_self
    have hlisted := Tree.listed_set [.of k.members] (by simp [CharClass.IsPlain, CharClass.of])
      k.negated r
    rwa [← isPlain_eq_ofItems hitem.1] at hlisted
  | bracket negated r r' hitems _ =>
    intro hfull
    have hplain := hitems.isItem fun x hx => hfull x (by simp [hx])
    rw [classOf_eq_ofItems]
    exact Tree.listed_set _ (List.forall_mem_map.mpr fun i hi => (hplain i hi).1) negated _
  | group kind r r' _ ih =>
    intro hfull
    exact groupTree_listed (altTree_listed (ih fun x hx => hfull x (by simp [hx])))
  | operand _ ih => exact ih
  | algebra op r _ _ iht ihu =>
    intro hfull
    refine Tree.listed_of_parts (by simp) ?_
    exact List.forall_mem_cons.mpr ⟨iht fun x hx => hfull x (by simp [hx]),
      List.forall_mem_singleton.mpr (ihu fun x hx => hfull x (by simp [hx]))⟩
  | plain _ ih => exact ih
  | quantified _ _ _ ih =>
    intro hfull
    exact Tree.listed_of_parts (by simp)
      (List.forall_mem_singleton.mpr (ih fun x hx => hfull x (by simp [hx])))
  | nil => exact fun _ t ht => by cases ht
  | snoc _ _ ihs iht =>
    intro hfull
    exact List.forall_mem_append.mpr ⟨ihs fun x hx => hfull x (by simp [hx]),
      List.forall_mem_singleton.mpr (iht fun x hx => hfull x (by simp [hx]))⟩
  | single stop _ ih =>
    exact fun hfull => List.forall_mem_singleton.mpr (sequence_listed (ih hfull) stop)
  | bar r stop _ _ iha ihs =>
    intro hfull
    exact List.forall_mem_append.mpr ⟨iha fun x hx => hfull x (by simp [hx]),
      List.forall_mem_singleton.mpr (sequence_listed (ihs fun x hx => hfull x (by simp [hx])) stop)⟩

/-- The classes of a text without mistakes. -/
theorem parseText_listed {d : Dialect} {text : List Char} {t : Tree}
    (h : parseText d text = (t, [])) : t.Listed := by
  have hfull : ∀ x ∈ lexemes d text, x.token.Full :=
    fun x hx => (lexFrom_written d {} 0 text x hx).full
  obtain ⟨ts, hts, rfl⟩ := (parseLexemes_eq_iff hfull (byteLength text) t).mp h
  exact altTree_listed (hts.listed hfull)

end Regex

namespace CharClass

/-! ## 4. The law -/

/-- **A class means the union of its items, or the outside of it, under every folding** that keeps
the empty set and unions, as leaving letters alone and adding their case variants do.

* Without a negation, the class has the characters that some set has when folded, or that some set
  of which the outside is meant does not have when folded.  With a negation, it has the others.
* The order of the items and how often each is written do not matter.
* Where case is ignored, the outside of a class has no case variant of a character of its sets.
* The classes of a text without mistakes are made in this way.

Without folding, adding an item of any kind to a class adds the characters of the item. -/
theorem resolve_ofItems {fold : CharSet → CharSet} (hfold : CharSet.Additive fold)
    {items : List CharClass} (hplain : ∀ i ∈ items, i.IsPlain) (negated : Bool) :
    (CharSet.Additive id ∧ CharSet.Additive CharSet.caseFold) ∧
    (∀ c ≤ maxCodePoint, c ∈ (ofItems items negated).resolve fold ↔
      ¬ (((∃ i ∈ items, i.negated = false ∧ c ∈ fold i.members) ∨
        ∃ i ∈ items, i.negated = true ∧ ¬ c ∈ fold i.members) ↔ negated = true)) ∧
    (∀ others : List CharClass, (∀ i, i ∈ others ↔ i ∈ items) →
      (ofItems others negated).resolve fold = (ofItems items negated).resolve fold) ∧
    (∀ flags : Lexical.Flags, flags.caseInsensitive = true → ∀ i ∈ items, i.negated = false →
      ∀ c ∈ i.members, ∀ d, d = c ∨ d ∈ caseVariants c →
        ¬ d ∈ (ofItems items true).resolve flags.fold) ∧
    (∀ (dialect : Regex.Dialect) (text : List Char) (t : Regex.Tree),
      Regex.parseText dialect text = (t, []) → t.Listed) ∧
    ∀ k item : CharClass, k.negated = false →
      ∀ c, (k.add item).contains c = (k.contains c || item.contains c) := by
  refine ⟨⟨CharSet.additive_id, CharSet.additive_caseFold⟩, fun c hc => ?_, fun others hsame => ?_,
    fun flags hcase i hi hneg c hmem d hd => ?_, fun _ _ _ => Regex.parseText_listed,
    fun k item hk => contains_add hk item⟩
  · have hunion := mem_resolve_ofItems (c := c) hfold hplain
    simp only [hc, true_and] at hunion
    cases negated with
    | false => rw [hunion, Bool.false_eq_true, iff_false, not_not]
    | true =>
      rw [mem_resolve_ofItems_true, hunion, and_iff_right hc]
      exact not_congr (iff_true_right rfl).symm
  · have hplain' : ∀ i ∈ others, i.IsPlain := fun i hi => hplain i ((hsame i).mp hi)
    have hunion : ∀ c, c ∈ (ofItems others false).resolve fold ↔
        c ∈ (ofItems items false).resolve fold := by
      intro c
      simp only [mem_resolve_ofItems hfold hplain, mem_resolve_ofItems hfold hplain', hsame]
    refine CharSet.ext fun c => ?_
    cases negated with
    | false => exact hunion c
    | true => rw [mem_resolve_ofItems_true, mem_resolve_ofItems_true, hunion]
  · have hfolded : d ∈ flags.fold i.members :=
      Lexical.Flags.mem_fold.mpr ⟨c, hmem, hd.imp_right fun hd => ⟨hcase, hd⟩⟩
    rw [mem_resolve_ofItems_true]
    rintro ⟨-, hnot⟩
    exact hnot ((mem_resolve_ofItems flags.additive_fold hplain).mpr (.inl ⟨i, hi, hneg, hfolded⟩))

/-- The class `[^\Wa]`, where case is ignored: `b` is in it, and neither `a` nor `A` is. -/
theorem resolve_ofItems_word :
    CharSet.Additive CharSet.caseFold ∧
    (∀ i ∈ [outside .word, of (.single 0x61)], i.IsPlain) ∧
    0x62 ∈ (ofItems [outside .word, of (.single 0x61)] true).resolve CharSet.caseFold ∧
    ¬ 0x41 ∈ (ofItems [outside .word, of (.single 0x61)] true).resolve CharSet.caseFold := by
  have hplain : ∀ i ∈ [outside .word, of (.single 0x61)], i.IsPlain := by
    simp [IsPlain, outside, of]
  obtain ⟨-, hmem, -, hcase, -⟩ := resolve_ofItems CharSet.additive_caseFold hplain true
  refine ⟨CharSet.additive_caseFold, hplain, (hmem 0x62 (by decide)).mpr ?_, ?_⟩
  · have hb : 0x62 ∈ CharSet.word.caseFold := CharSet.mem_caseFold.mpr (.inl (by decide))
    have ha : ¬ 0x62 ∈ (CharSet.single 0x61).caseFold := by decide +kernel
    simp [outside, of, hb, ha, -CharSet.mem_caseFold]
  · refine hcase { caseInsensitive := true } rfl (of (.single 0x61)) (by simp) rfl 0x61 (by decide)
      0x41 (.inr (by decide +kernel))

end CharClass

end GrammarTables
