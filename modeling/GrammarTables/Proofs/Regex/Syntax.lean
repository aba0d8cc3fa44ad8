import GrammarTables.Proofs.Regex.Proper
/-
# The grammar of regular expressions

What a list of tokens has to be for the reader to find no mistake in it, and the tree it stands for:

    alt     := seq ('|' seq)*
    seq     := term*
    term    := setexpr quantifier*
    setexpr := primary (setop primary)*
    primary := char | class | '.' | name | eoi | '(' alt ')' | '[' item* ']'

`Derives` has one rule for each way to build a phrase, and with each phrase goes its tree.  Trees
know the bytes they came from; only the empty sequence has none of its own and takes the place where
the next token begins, so an alternation is derived together with the byte where it ends.

A hyphen between a character and a character or class always makes a range (`Separate`), so `[z-a]`
and `[a-\w]` are not derived by reading the hyphen as an item.

Trees of the grammar have no placeholder, and a sequence or an alternation in them has at least two
parts (`Derives.built`).
-/

namespace GrammarTables.Regex

/-! ## 1. Bracket expressions -/

/-- An item of a bracket expression. -/
inductive ClassItem
  | char (c : Nat)
  | set (k : CharClass)
  /-- A hyphen that stands for itself. -/
  | hyphen
  | range (lo hi : Nat)

namespace ClassItem

/-- How the item is written. -/
def tokens : ClassItem → List Token
  | .char c => [.char c]
  | .set k => [.set k]
  | .hyphen => [.dash]
  | .range lo hi => [.char lo, .dash, .char hi]

/-- The characters of the item. -/
def chars : ClassItem → CharClass
  | .char c => .of (.single c)
  | .set k => k
  | .hyphen => .of (.single 0x2D)
  | .range lo hi => .of (.range lo hi)

/-- A range goes upwards. -/
def Ordered : ClassItem → Prop
  | .range lo hi => lo ≤ hi
  | .char _ | .set _ | .hyphen => True

end ClassItem

/-- The class that items make up. -/
def classOf (items : List ClassItem) : CharClass :=
  items.foldl (fun k i => k.add i.chars) {}

/-- A hyphen after a character stands for itself only at the end or before another hyphen. -/
def Separate (items : List ClassItem) : Prop :=
  ∀ init c x rest, items = init ++ .char c :: .hyphen :: x :: rest → x = .hyphen

/-- The items are written as the tokens, and there is no other way to read them. -/
structure Bracketed (items : List ClassItem) (xs : List Lexeme) : Prop where
  tokens : xs.map (·.token) = items.flatMap ClassItem.tokens
  separate : Separate items
  ordered : ∀ i ∈ items, i.Ordered

/-! ## 2. Phrases -/

/-- What a quantifier asks for. -/
def Token.bounds? : Token → Option (Nat × Option Nat)
  | .star => some (0, none)
  | .plus => some (1, none)
  | .quest => some (0, some 1)
  | .times min max => some (min, max)
  | _ => none

/-- The tree of some alternatives. -/
def altTree : List Tree → Tree
  | [t] => t
  | ts => .alt (Tree.coverAll ts) ts

/-- A nonterminal of the grammar with what it stands for. -/
inductive Phrase
  | primary (t : Tree)
  | setExpr (t : Tree)
  | term (t : Tree)
  | seq (terms : List Tree)
  /-- Alternatives, the last of which ends at a byte. -/
  | alt (stop : Nat) (alternatives : List Tree)

/-- The tokens are a phrase. -/
inductive Derives : Phrase → List Lexeme → Prop
  | char (c : Nat) (r : TextRange) : Derives (.primary (.char r c)) [⟨.char c, r⟩]
  | set (k : CharClass) (r : TextRange) : Derives (.primary (.set r k)) [⟨.set k, r⟩]
  | any (r : TextRange) : Derives (.primary (.any r)) [⟨.any, r⟩]
  | eoi (r : TextRange) : Derives (.primary (.eoi r)) [⟨.eoi, r⟩]
  | expand (name : String) (r : TextRange) :
      Derives (.primary (.expand r name)) [⟨.expand name, r⟩]
  | group {xs : List Lexeme} {ts : List Tree} (kind : GroupKind) (r r' : TextRange) :
      Derives (.alt r'.start ts) xs →
      Derives (.primary (kind.tree ⟨r.start, r'.stop⟩ (altTree ts)))
        (⟨.openGroup kind, r⟩ :: (xs ++ [⟨.closeGroup, r'⟩]))
  | bracket {xs : List Lexeme} {items : List ClassItem} (negated : Bool) (r r' : TextRange) :
      Bracketed items xs → (items ≠ [] ∨ negated = true) →
      Derives (.primary (.set ⟨r.start, r'.stop⟩ { classOf items with negated }))
        (⟨.openClass negated, r⟩ :: (xs ++ [⟨.closeClass, r'⟩]))
  | operand {xs : List Lexeme} {t : Tree} : Derives (.primary t) xs → Derives (.setExpr t) xs
  | algebra {xs ys : List Lexeme} {t u : Tree} (op : SetOp) (r : TextRange) :
      Derives (.setExpr t) xs → Derives (.primary u) ys →
      Derives (.setExpr (.algebra (t.range.cover u.range) op t u)) (xs ++ ⟨.setOp op, r⟩ :: ys)
  | plain {xs : List Lexeme} {t : Tree} : Derives (.setExpr t) xs → Derives (.term t) xs
  | quantified {xs : List Lexeme} {t : Tree} {x : Lexeme} {min : Nat} {max : Option Nat} :
      Derives (.term t) xs → x.token.bounds? = some (min, max) → (∀ m ∈ max, min ≤ m) →
      Derives (.term (.repeated (t.range.cover x.range) t min max)) (xs ++ [x])
  | nil : Derives (.seq []) []
  | snoc {xs ys : List Lexeme} {ts : List Tree} {t : Tree} :
      Derives (.seq ts) xs → Derives (.term t) ys → Derives (.seq (ts ++ [t])) (xs ++ ys)
  | single {xs : List Lexeme} {ts : List Tree} (stop : Nat) :
      Derives (.seq ts) xs → Derives (.alt stop [Level.sequence ts stop]) xs
  | bar {xs ys : List Lexeme} {ts us : List Tree} (r : TextRange) (stop : Nat) :
      Derives (.alt r.start ts) xs → Derives (.seq us) ys →
      Derives (.alt stop (ts ++ [Level.sequence us stop])) (xs ++ ⟨.or, r⟩ :: ys)

/-! ## 3. Trees of the grammar -/

/-- What a tree of the grammar satisfies at its root. -/
def Tree.NodeBuilt : Tree → Prop
  | .placeholder _ => False
  | .seq _ items | .alt _ items => 2 ≤ items.length
  | _ => True

/-- No part of the tree stands for something that could not be read, and every sequence and every
alternation has at least two parts. -/
def Tree.Built (t : Tree) : Prop := ∀ u ∈ t.preorder, u.NodeBuilt

namespace Tree

/-- The parts right below the root. -/
def parts : Tree → List Tree
  | .seq _ items | .alt _ items => items
  | .group _ _ inner | .notFollowedBy _ inner | .repeated _ inner _ _ => [inner]
  | .algebra _ _ left right => [left, right]
  | .empty _ | .char _ _ | .set _ _ | .any _ | .eoi _ | .expand _ _ | .placeholder _ => []

theorem preorder_eq (t : Tree) : t.preorder = t :: preorderAll t.parts := by
  cases t <;> simp [preorder, preorderAll, parts]

theorem built_of_parts {t : Tree} (hroot : t.NodeBuilt) (hparts : ∀ u ∈ t.parts, u.Built) :
    t.Built := by
  intro u hu
  rw [preorder_eq] at hu
  rcases List.mem_cons.mp hu with rfl | hu
  · exact hroot
  · obtain ⟨v, hv, hu⟩ := mem_preorderAll.mp hu
    exact hparts v hv u hu

end Tree

/-- The trees of a phrase are built as the grammar builds them. -/
def Phrase.Built : Phrase → Prop
  | .primary t | .setExpr t | .term t => t.Built
  | .seq ts => ∀ t ∈ ts, t.Built
  | .alt _ ts => ts ≠ [] ∧ ∀ t ∈ ts, t.Built

theorem sequence_built {ts : List Tree} (h : ∀ t ∈ ts, t.Built) (stop : Nat) :
    (Level.sequence ts stop).Built := by
  match ts with
  | [] => exact Tree.built_of_parts trivial fun u hu => nomatch hu
  | [t] => exact h t List.mem_cons_self
  | t :: u :: rest =>
    have hlen : 2 ≤ (t :: u :: rest).length := by simp
    exact Tree.built_of_parts hlen h

theorem altTree_built {ts : List Tree} (hne : ts ≠ []) (h : ∀ t ∈ ts, t.Built) :
    (altTree ts).Built := by
  match ts with
  | [t] => exact h t List.mem_cons_self
  | t :: u :: rest =>
    have hlen : 2 ≤ (t :: u :: rest).length := by simp
    exact Tree.built_of_parts hlen h

theorem groupTree_built {kind : GroupKind} {range : TextRange} {t : Tree} (h : t.Built) :
    (kind.tree range t).Built := by
  cases kind <;> exact Tree.built_of_parts trivial (List.forall_mem_singleton.mpr h)

/-- **Trees of the grammar have no placeholder**, and their sequences and alternations have at least
two parts. -/
theorem Derives.built {p : Phrase} {xs : List Lexeme} (h : Derives p xs) : p.Built := by
  induction h with
  | char | set | any | eoi | expand | bracket =>
    exact Tree.built_of_parts trivial fun u hu => nomatch hu
  | group kind r r' _ ih => exact groupTree_built (altTree_built ih.1 ih.2)
  | operand _ ih => exact ih
  | algebra op r _ _ iht ihu =>
    refine Tree.built_of_parts trivial ?_
    exact List.forall_mem_cons.mpr ⟨iht, List.forall_mem_singleton.mpr ihu⟩
  | plain _ ih => exact ih
  | quantified _ _ _ ih => exact Tree.built_of_parts trivial (List.forall_mem_singleton.mpr ih)
  | nil => exact fun t ht => by cases ht
  | snoc _ _ ihs iht =>
    intro t ht
    rcases List.mem_append.mp ht with ht | ht
    · exact ihs t ht
    · obtain rfl := List.mem_singleton.mp ht
      exact iht
  | single stop _ ih =>
    refine ⟨by simp, fun t ht => ?_⟩
    obtain rfl := List.mem_singleton.mp ht
    exact sequence_built ih stop
  | bar r stop _ _ iha ihs =>
    refine ⟨by simp, fun t ht => ?_⟩
    rcases List.mem_append.mp ht with ht | ht
    · exact iha.2 t ht
    · obtain rfl := List.mem_singleton.mp ht
      exact sequence_built ihs stop

/-! ## 4. Classes that are not empty -/

/-- Something was put into the class. -/
def Filled (k : CharClass) : Prop := (∃ c, c ∈ k.members) ∨ k.excluded ≠ []

/-- The class is a set that is not empty, or the outside of a set. -/
def IsItem (k : CharClass) : Prop :=
  k.excluded = [] ∧ (k.negated = true ∨ ∃ c, c ∈ k.members)

/-- A token that stands for a class stands for one that may be an item. -/
def Token.Full : Token → Prop
  | .set k => IsItem k
  | _ => True

theorem Token.Written.full {t : Token} (h : t.Written) : t.Full := by
  cases t with
  | set k =>
    obtain ⟨s, -, hs, rfl | rfl⟩ := h
    · exact ⟨rfl, .inr hs⟩
    · exact ⟨rfl, .inl rfl⟩
  | _ => trivial

theorem isEmpty_eq_false_of_filled {k : CharClass} (h : Filled k) : k.isEmpty = false := by
  rcases h with ⟨c, hc⟩ | h
  · obtain ⟨r, hr, -⟩ := CharSet.mem_iff_exists.mp hc
    have hne : k.members.ranges.isEmpty = false := by
      simpa using List.ne_nil_of_mem hr
    simp [CharClass.isEmpty, CharSet.isEmpty, hne]
  · simp [CharClass.isEmpty, h]

theorem Filled.add {k : CharClass} (h : Filled k) (item : CharClass) : Filled (k.add item) := by
  have hunion : ∀ s, Filled { k with members := k.members.union s } := by
    intro s
    exact h.imp_left fun ⟨c, hc⟩ => ⟨c, CharSet.mem_union.mpr (.inl hc)⟩
  unfold CharClass.add
  split
  · split
    · exact .inr (by simp)
    · exact hunion _
  · exact hunion _

theorem filled_add {k item : CharClass} (h : IsItem item) : Filled (k.add item) := by
  obtain ⟨hexcluded, hitem⟩ := h
  unfold CharClass.add
  rw [if_pos (by simp [hexcluded])]
  split
  · exact .inr (by simp)
  · rename_i hneg
    obtain ⟨c, hc⟩ := hitem.resolve_left hneg
    exact .inl ⟨c, CharSet.mem_union.mpr (.inr hc)⟩

theorem filled_foldl_add (items : List ClassItem) : ∀ {k : CharClass}, Filled k →
    Filled (items.foldl (fun k i => k.add i.chars) k) := by
  induction items with
  | nil => exact fun h => h
  | cons i rest ih => exact fun h => ih (h.add i.chars)

theorem filled_classOf {items : List ClassItem} (hne : items ≠ [])
    (h : ∀ i ∈ items, IsItem i.chars) : Filled (classOf items) := by
  match items with
  | i :: rest => exact filled_foldl_add rest (filled_add (h i List.mem_cons_self))

/-- The items that full tokens make up are no empty sets. -/
theorem Bracketed.isItem {items : List ClassItem} {xs : List Lexeme} (h : Bracketed items xs)
    (hfull : ∀ x ∈ xs, x.token.Full) : ∀ i ∈ items, IsItem i.chars := by
  intro i hi
  cases i with
  | char c => exact ⟨rfl, .inr ⟨c, CharSet.mem_single.mpr rfl⟩⟩
  | hyphen => exact ⟨rfl, .inr ⟨_, CharSet.mem_single.mpr rfl⟩⟩
  | range lo hi' => exact ⟨rfl, .inr ⟨lo, CharSet.mem_range.mpr ⟨Nat.le_refl lo, h.ordered _ hi⟩⟩⟩
  | set k =>
    have hmem : Token.set k ∈ xs.map (·.token) := by
      rw [h.tokens]
      exact List.mem_flatMap.mpr ⟨_, hi, List.mem_singleton.mpr rfl⟩
    obtain ⟨x, hx, htoken⟩ := List.mem_map.mp hmem
    have := hfull x hx
    rw [htoken] at this
    exact this

/-! ## 5. Trees without places -/

namespace Tree

mutual

/-- The tree without the places that its parts came from. -/
def bare : Tree → Tree
  | .empty _ => .empty (.point 0)
  | .char _ c => .char (.point 0) c
  | .set _ k => .set (.point 0) k
  | .any _ => .any (.point 0)
  | .eoi _ => .eoi (.point 0)
  | .expand _ name => .expand (.point 0) name
  | .seq _ items => .seq (.point 0) (bareAll items)
  | .alt _ items => .alt (.point 0) (bareAll items)
  | .group _ flags inner => .group (.point 0) flags (bare inner)
  | .notFollowedBy _ inner => .notFollowedBy (.point 0) (bare inner)
  | .repeated _ inner min max => .repeated (.point 0) (bare inner) min max
  | .algebra _ op left right => .algebra (.point 0) op (bare left) (bare right)
  | .placeholder _ => .placeholder (.point 0)

/-- `bare` of each tree of a list. -/
def bareAll : List Tree → List Tree
  | [] => []
  | t :: ts => bare t :: bareAll ts

end

theorem bareAll_eq_map : ∀ ts : List Tree, bareAll ts = ts.map bare
  | [] => rfl
  | t :: ts => by rw [bareAll, bareAll_eq_map ts, List.map_cons]

end Tree

end GrammarTables.Regex
